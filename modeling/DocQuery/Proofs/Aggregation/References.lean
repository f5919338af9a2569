import DocQuery.Aggregation.Flatten
import DocQuery.Proofs.Value.Document
import DocQuery.Statement.Mismatch

/-! The projections of an aggregation refer to its accumulators and to nothing else: whatever is
referred to is registered first, and a registered key stays. -/

namespace DocQuery.Aggregation

open Statement (exists_of_bind_eq_ok)

/-- The name of an operator in an aggregation expression. -/
def operatorName : ArithOp → String
  | .add => "$add"
  | .subtract => "$subtract"
  | .multiply => "$multiply"
  | .divide => "$divide"
  | .mod => "$mod"

theorem key_eq_operatorName (op : ArithOp) : op.key = operatorName op := by
  cases op <;> rfl

def lowercase (name : String) : String :=
  String.ofList (name.toList.map Char.toLower)

theorem callKey_eq (function : String) : Expr.callKey function = "$" ++ lowercase function :=
  rfl

/-- An aggregation expression over the fields `keys` of a group. The key of the group is none of
these. -/
inductive Over (keys : List String) : Value → Prop where
  | int (n : Int) : Over keys (.int n)
  | double (d : Double) : Over keys (.double d)
  | reference {key : String} (hmem : key ∈ keys) (hne : key ≠ "_id") :
    Over keys (.string ("$" ++ key))
  | binary (op : ArithOp) {left right : Value} (hleft : Over keys left) (hright : Over keys right) :
    Over keys (.document [(operatorName op, .array [left, right])])
  | call (function : String) {argument : Value} (h : Over keys argument) :
    Over keys (.document [("$" ++ lowercase function, argument)])

theorem Over.mono {keys others : List String} (hsub : keys ⊆ others) {value : Value}
    (h : Over keys value) : Over others value := by
  induction h with
  | int n => exact .int n
  | double d => exact .double d
  | reference hmem hne => exact .reference (hsub hmem) hne
  | binary op _ _ hleft hright => exact .binary op hleft hright
  | call function _ ih => exact .call function ih

theorem Over.of_number {text : List Char} {value : Value} (h : Literal.number? text = some value)
    (keys : List String) : Over keys value := by
  obtain ⟨n, -, hn⟩ := Option.bind_eq_some_iff.mp h
  simp only [Numeral.value?] at hn
  split at hn
  · split at hn
    · cases hn
      exact .int _
    · cases hn
      exact .double _
  · cases hn

def keysOf (registered : List (String × Accumulator)) : List String :=
  registered.map (·.1)

theorem mem_keysOf_register {key other : String} {accumulator : Accumulator}
    {registered : List (String × Accumulator)} :
    other ∈ keysOf (register key accumulator registered) ↔
      other = key ∨ other ∈ keysOf registered := by
  unfold register
  split
  case isTrue h =>
    have hkey : key ∈ keysOf registered := by simpa [keysOf] using h
    constructor
    · exact .inr
    · rintro (rfl | hmem)
      · exact hkey
      · exact hmem
  case isFalse h => simp [keysOf, or_comm]

/-- Keys are only added, and never that of the group. -/
structure Extends (before after : List (String × Accumulator)) : Prop where
  subset : keysOf before ⊆ keysOf after
  id_notMem : "_id" ∉ keysOf before → "_id" ∉ keysOf after

theorem Extends.refl (registered : List (String × Accumulator)) : Extends registered registered :=
  ⟨fun _ h => h, fun h => h⟩

theorem Extends.trans {first second third : List (String × Accumulator)}
    (h : Extends first second) (h' : Extends second third) : Extends first third :=
  ⟨fun _ hmem => h'.subset (h.subset hmem), fun hid => h'.id_notMem (h.id_notMem hid)⟩

theorem extends_register {key : String} (hne : key ≠ "_id") (accumulator : Accumulator)
    (registered : List (String × Accumulator)) :
    Extends registered (register key accumulator registered) := by
  refine ⟨fun _ hmem => mem_keysOf_register.mpr (.inr hmem), fun hid hmem => ?_⟩
  rcases mem_keysOf_register.mp hmem with he | hmem
  · exact hne he.symm
  · exact hid hmem

theorem over_register {key : String} (hne : key ≠ "_id") (accumulator : Accumulator)
    (registered : List (String × Accumulator)) :
    Over (keysOf (register key accumulator registered)) (reference key) :=
  .reference (mem_keysOf_register.mpr (.inl rfl)) hne

theorem ne_id_of_ofCall {text : String} {accumulator : Accumulator}
    (h : Accumulator.ofCall (functionName text) text = .ok accumulator) : text ≠ "_id" := by
  rintro rfl
  have hname : AggregateFn.ofName? (functionName "_id") = none := by decide
  simp [Accumulator.ofCall, hname] at h

theorem temporaryKey_toList (e : Expr) : ∃ rest, (temporaryKey e).toList = '_' :: '_' :: rest := by
  have happend : (temporaryKey e).toList = "__tmp_expression_".toList ++ e.contentHash.toList :=
    String.toList_append
  have hstart : "__tmp_expression_".toList = '_' :: '_' :: "tmp_expression_".toList := by decide
  exact ⟨_, by rw [happend, hstart]; rfl⟩

theorem temporaryKey_ne_id (e : Expr) : temporaryKey e ≠ "_id" := by
  intro h
  obtain ⟨rest, hrest⟩ := temporaryKey_toList e
  have hid : "_id".toList = ['_', 'i', 'd'] := by decide
  rw [h, hid] at hrest
  simp at hrest

theorem flatten_over {e : Expr} {before after : List (String × Accumulator)} {value : Value}
    (h : flatten before e = .ok (value, after)) :
    Extends before after ∧ Over (keysOf after) value := by
  induction e generalizing before after value with
  | leaf text =>
    simp only [flatten] at h
    cases hn : Literal.number? text.toList with
    | some number =>
      simp only [hn, Except.ok.injEq, Prod.mk.injEq] at h
      obtain ⟨rfl, rfl⟩ := h
      exact ⟨.refl _, .of_number hn _⟩
    | none =>
      simp only [hn] at h
      obtain ⟨accumulator, hcall, h⟩ := exists_of_bind_eq_ok h
      cases h
      have hne := ne_id_of_ofCall hcall
      exact ⟨extends_register hne _ _, over_register hne _ _⟩
  | binary op left right hleft hright =>
    simp only [flatten] at h
    obtain ⟨⟨l, mid⟩, hl, h⟩ := exists_of_bind_eq_ok h
    obtain ⟨⟨r, last⟩, hr, h⟩ := exists_of_bind_eq_ok h
    cases h
    rw [key_eq_operatorName]
    obtain ⟨hmid, hover⟩ := hleft hl
    obtain ⟨hlast, hover'⟩ := hright hr
    exact ⟨hmid.trans hlast, .binary op (hover.mono hlast.subset) hover'⟩
  | call function argument ih =>
    simp only [flatten] at h
    split at h
    · cases h
      exact ⟨extends_register (by decide) _ _, over_register (by decide) _ _⟩
    · cases h
      have hne := temporaryKey_ne_id (.call function argument)
      exact ⟨extends_register hne _ _, over_register hne _ _⟩
    · obtain ⟨⟨inner, last⟩, hi, h⟩ := exists_of_bind_eq_ok h
      cases h
      obtain ⟨hlast, hover⟩ := ih hi
      exact ⟨hlast, .call function hover⟩

/-! ### Items -/

def outputName (item : SelectItem) : String :=
  item.label.getD item.expr

theorem addItem_cases {a b : Aggregation} {item : SelectItem} (h : addItem a item = .ok b) :
    (∃ text accumulator, Expr.read item.expr = .ok (.leaf text) ∧
      Accumulator.ofCall (item.function.getD (functionName text)) text = .ok accumulator ∧
      b = ⟨register item.expr accumulator a.accumulators,
        a.projections.insert (outputName item) (reference item.expr)⟩) ∨
    (∃ e value accumulators, Expr.read item.expr = .ok e ∧ (∀ text, e ≠ .leaf text) ∧
      flatten a.accumulators e = .ok (value, accumulators) ∧
      b = ⟨accumulators, a.projections.insert (outputName item) value⟩) := by
  simp only [addItem] at h
  cases hread : Expr.read item.expr with
  | error e => simp [hread] at h
  | ok e =>
    cases e with
    | leaf text =>
      simp only [hread] at h
      obtain ⟨accumulator, hcall, h⟩ := exists_of_bind_eq_ok h
      cases h
      exact .inl ⟨text, accumulator, rfl, hcall, rfl⟩
    | binary op left right =>
      simp only [hread] at h
      obtain ⟨⟨value, accumulators⟩, hflat, h⟩ := exists_of_bind_eq_ok h
      cases h
      exact .inr ⟨_, value, accumulators, rfl, by simp, hflat, rfl⟩
    | call function argument =>
      simp only [hread] at h
      obtain ⟨⟨value, accumulators⟩, hflat, h⟩ := exists_of_bind_eq_ok h
      cases h
      exact .inr ⟨_, value, accumulators, rfl, by simp, hflat, rfl⟩

/-- The key of the group is kept for the group, and projections are over accumulators. -/
structure Resolved (a : Aggregation) : Prop where
  id_notMem : "_id" ∉ keysOf a.accumulators
  projections_over : ∀ entry ∈ a.projections, Over (keysOf a.accumulators) entry.2

theorem Resolved.insert {a : Aggregation} (ha : Resolved a)
    {accumulators : List (String × Accumulator)} (hext : Extends a.accumulators accumulators)
    (name : String) {value : Value} (hvalue : Over (keysOf accumulators) value) :
    Resolved ⟨accumulators, a.projections.insert name value⟩ := by
  refine ⟨hext.id_notMem ha.id_notMem, fun entry hentry => ?_⟩
  rcases Document.mem_insert hentry with rfl | hold
  · exact hvalue
  · exact (ha.projections_over entry hold).mono hext.subset

theorem Resolved.addItem {a b : Aggregation} (ha : Resolved a) {item : SelectItem}
    (hne : item.expr ≠ "_id") (h : addItem a item = .ok b) : Resolved b := by
  rcases addItem_cases h with ⟨text, accumulator, -, -, rfl⟩ |
    ⟨e, value, accumulators, -, -, hflat, rfl⟩
  · exact ha.insert (extends_register hne _ _) _ (over_register hne _ _)
  · obtain ⟨hext, hvalue⟩ := flatten_over hflat
    exact ha.insert hext _ hvalue

theorem foldlM_addItem {P : Aggregation → Prop} {items : List SelectItem} {a b : Aggregation}
    (hstep : ∀ item ∈ items, ∀ a b, P a → addItem a item = .ok b → P b)
    (h : items.foldlM addItem a = .ok b) (ha : P a) : P b := by
  induction items generalizing a with
  | nil =>
    cases h
    exact ha
  | cons item items ih =>
    obtain ⟨mid, hmid, h⟩ := exists_of_bind_eq_ok (by simpa using h)
    apply ih (fun other hother => hstep other (List.mem_cons_of_mem _ hother)) h
    exact hstep item List.mem_cons_self a mid ha hmid

theorem mem_single_append_composite {items : List SelectItem} {item : SelectItem} :
    item ∈ items.filter (!Expr.isComposite ·.expr) ++ items.filter (Expr.isComposite ·.expr) ↔
      item ∈ items := by
  by_cases h : Expr.isComposite item.expr = true <;> simp [h]

theorem resolved_of_ofItems {items : List SelectItem} {a : Aggregation}
    (hne : ∀ item ∈ items, item.expr ≠ "_id") (h : ofItems items = .ok a) : Resolved a := by
  have hstart : Resolved {} := ⟨by simp [keysOf], by simp⟩
  refine foldlM_addItem (fun item hitem a b ha hb => ?_) h hstart
  exact ha.addItem (hne item (mem_single_append_composite.mp hitem)) hb

/-! ### Names of projections -/

theorem reference_injective {name other : String} (h : reference name = reference other) :
    name = other := by
  simpa [reference] using h

theorem reference_id_append (key : String) :
    reference ("_id." ++ key) = .string ("$_id." ++ key) := by
  have hid : "$" ++ "_id." = "$_id." := rfl
  rw [reference, ← String.append_assoc, hid]

theorem exists_insert_of_addItem {a b : Aggregation} {item : SelectItem}
    (h : addItem a item = .ok b) :
    ∃ value, b.projections = a.projections.insert (outputName item) value := by
  rcases addItem_cases h with ⟨text, accumulator, -, -, rfl⟩ | ⟨e, value, accumulators, -, -, -, rfl⟩
  · exact ⟨_, rfl⟩
  · exact ⟨value, rfl⟩

theorem mem_keys_foldlM {items : List SelectItem} {a b : Aggregation} {key : String}
    (h : items.foldlM addItem a = .ok b) :
    key ∈ b.projections.keys ↔
      (∃ item ∈ items, outputName item = key) ∨ key ∈ a.projections.keys := by
  induction items generalizing a with
  | nil =>
    cases h
    simp
  | cons item items ih =>
    obtain ⟨mid, hmid, h⟩ := exists_of_bind_eq_ok (by simpa using h)
    obtain ⟨value, hvalue⟩ := exists_insert_of_addItem hmid
    rw [ih h, hvalue, Document.mem_keys_insert, or_left_comm, eq_comm]
    simp [or_assoc]

theorem mem_keys_projections {items : List SelectItem} {a : Aggregation} {key : String}
    (h : ofItems items = .ok a) :
    key ∈ a.projections.keys ↔ ∃ item ∈ items, outputName item = key := by
  rw [mem_keys_foldlM h]
  simp only [mem_single_append_composite, Document.keys, List.map_nil, List.not_mem_nil, or_false]

/-- What an operator or a call gives is never read from a field of the key of the group. -/
theorem flatten_ne_reference {e : Expr} (hleaf : ∀ text, e ≠ .leaf text)
    {before after : List (String × Accumulator)} {value : Value}
    (h : flatten before e = .ok (value, after)) (key : String) :
    value ≠ reference ("_id." ++ key) := by
  have hprefix : ∀ {name : String}, ¬ "_id.".toList <+: name.toList →
      reference name ≠ reference ("_id." ++ key) := by
    intro name hname he
    exact hname ⟨key.toList, by simp [reference_injective he]⟩
  cases e with
  | leaf text => exact absurd rfl (hleaf text)
  | binary op left right =>
    simp only [flatten] at h
    obtain ⟨⟨l, mid⟩, hl, h⟩ := exists_of_bind_eq_ok h
    obtain ⟨⟨r, last⟩, hr, h⟩ := exists_of_bind_eq_ok h
    cases h
    simp [reference]
  | call function argument =>
    simp only [flatten] at h
    split at h
    · cases h
      exact hprefix (by decide)
    · cases h
      obtain ⟨rest, hrest⟩ := temporaryKey_toList (.call function argument)
      exact hprefix (by simp [hrest])
    · obtain ⟨⟨inner, last⟩, hi, h⟩ := exists_of_bind_eq_ok h
      cases h
      simp [reference]

/-- Every projection is of an item. It reads a field of the key of the group only where the text of
the item does. -/
def ProjectsFrom (items : List SelectItem) (a : Aggregation) : Prop :=
  ∀ entry ∈ a.projections, ∃ item ∈ items, outputName item = entry.1 ∧
    ∀ key, entry.2 = reference ("_id." ++ key) → item.expr = "_id." ++ key

theorem ProjectsFrom.addItem {items : List SelectItem} {a b : Aggregation}
    (ha : ProjectsFrom items a) {item : SelectItem} (hitem : item ∈ items)
    (h : addItem a item = .ok b) : ProjectsFrom items b := by
  intro entry hentry
  rcases addItem_cases h with ⟨text, accumulator, -, -, rfl⟩ |
    ⟨e, value, accumulators, -, hleaf, hflat, rfl⟩
  · rcases Document.mem_insert hentry with rfl | hold
    · exact ⟨item, hitem, rfl, fun key => reference_injective⟩
    · exact ha entry hold
  · rcases Document.mem_insert hentry with rfl | hold
    · exact ⟨item, hitem, rfl, fun key hkey => absurd hkey (flatten_ne_reference hleaf hflat key)⟩
    · exact ha entry hold

theorem projectsFrom_of_ofItems {items : List SelectItem} {a : Aggregation}
    (h : ofItems items = .ok a) : ProjectsFrom items a := by
  have hstart : ProjectsFrom items {} := fun _ hnil => absurd hnil List.not_mem_nil
  refine foldlM_addItem (fun item hitem a b ha hb => ?_) h hstart
  exact ha.addItem (mem_single_append_composite.mp hitem) hb

end DocQuery.Aggregation
