import DocQuery.Proofs.Aggregation.References
import DocQuery.Proofs.Arithmetic.Operands
import DocQuery.Proofs.Text.Words
import DocQuery.Proofs.Value.Numeral
import Mathlib.Data.List.Nodup

/-! What the projections of an aggregation stand for. Items share accumulators. With every
reference replaced by the accumulator behind it, the projection of an item is the item's own
expression. -/

namespace DocQuery

/-- The functions that gather the values of a field. To count is apart from these. -/
def Aggregation.gathering : List String :=
  ["sum", "avg", "min", "max"]

namespace Expr

open Aggregation (gathering lowercase)

def lowered : Expr → Expr
  | leaf text => leaf text
  | binary op left right => binary op left.lowered right.lowered
  | call function argument => call (lowercase function) argument.lowered

def aggregateCalls : Expr → List Expr
  | leaf _ => []
  | binary _ left right => left.aggregateCalls ++ right.aggregateCalls
  | e@(call function argument) =>
    (if lowercase function ∈ "count" :: gathering then [e] else []) ++ argument.aggregateCalls

end Expr

def AggregateFn.spelling : AggregateFn → String
  | sum => "sum"
  | avg => "avg"
  | min => "min"
  | max => "max"
  | count => "count"

namespace Aggregation

open Arithmetic (Bare Tidy eq_of_read_leaf tidy_of_read)
open Statement (exists_of_bind_eq_ok)

def aggregateCalls (items : List SelectItem) : List Expr :=
  items.flatMap fun item =>
    match Expr.read item.expr with
    | .ok e => e.aggregateCalls
    | .error _ => []

/-- An expression over the fields of a document: a leaf is a number or a field. -/
def overFields : Expr → Value
  | .leaf text => (Literal.number? text.toList).getD (.string ("$" ++ text))
  | .binary op left right =>
    .document [(operatorName op, .array [overFields left, overFields right])]
  | .call function argument => .document [("$" ++ lowercase function, overFields argument)]

/-- The accumulator of a call without an operator, such as `avg(cost)`. Its field is what follows
the name, the brackets and blanks around it left out. -/
def callDocument (text : String) : Option Value :=
  let name := lowercase (String.ofList (text.toList.takeWhile (· != '(')))
  let field := String.ofList (Text.trimOf ['(', ')', ' '] (text.toList.dropWhile (· != '(')))
  if field = "" then none
  else if name ∈ gathering then some (.document [("$" ++ name, .string ("$" ++ field))])
  else if name = "count" then
    some (.document [("$sum", if field = "*" then .int 1 else
      -- Documents without the field are not counted.
      .document [("$cond", .array
        [.document [("$ne", .array
          [.document [("$type", .string ("$" ++ field))], .string "missing"])],
        .int 1, .int 0])])])
  else none

/-- An expression with its accumulators in place, one expression at a time. -/
def direct : Expr → Option Value
  | .leaf text => (Literal.number? text.toList).or (callDocument text)
  | .binary op left right => do
    return .document [(operatorName op, .array [← direct left, ← direct right])]
  | .call function argument =>
    let name := lowercase function
    if name = "count" then some (.document [("$sum", .int 1)])
    else if name ∈ gathering then some (.document [("$" ++ name, overFields argument)])
    else (direct argument).map fun value => .document [("$" ++ name, value)]

def referent? (registered : List (String × Accumulator)) (text : String) : Option Accumulator :=
  match text.toList with
  | '$' :: key => registered.lookup (String.ofList key)
  | _ => none

mutual

/-- Puts accumulators in the place of the references to them. -/
def expand (registered : List (String × Accumulator)) : Value → Value
  | .string text => ((referent? registered text).map Accumulator.value).getD (.string text)
  | .array items => .array (expandItems registered items)
  | .document fields => .document (expandFields registered fields)
  | value => value

def expandItems (registered : List (String × Accumulator)) : List Value → List Value
  | [] => []
  | item :: items => expand registered item :: expandItems registered items

def expandFields (registered : List (String × Accumulator)) :
    List (String × Value) → List (String × Value)
  | [] => []
  | (key, value) :: fields => (key, expand registered value) :: expandFields registered fields

end

/-! ### Calls of aggregate functions -/

theorem lower_of_ofName? {name : String} {f : AggregateFn}
    (h : AggregateFn.ofName? name = some f) :
    Text.lower (Text.trim name.toList) = f.spelling.toList := by
  obtain ⟨front, back, heq, -⟩ := List.lookup_eq_some_iff.mp h
  have hmem : (String.ofList (Text.lower (Text.trim name.toList)), f) ∈
      [("sum", AggregateFn.sum), ("avg", .avg), ("min", .min), ("max", .max),
        ("count", .count)] := by
    rw [heq]
    simp
  have hspelling : String.ofList (Text.lower (Text.trim name.toList)) = f.spelling := by
    simp only [List.mem_cons, Prod.mk.injEq, List.not_mem_nil, or_false] at hmem
    rcases hmem with ⟨hw, rfl⟩ | ⟨hw, rfl⟩ | ⟨hw, rfl⟩ | ⟨hw, rfl⟩ | ⟨hw, rfl⟩ <;> exact hw
  rw [← hspelling, String.toList_ofList]

theorem exists_letter_of_ofName? {name : String} {f : AggregateFn}
    (h : AggregateFn.ofName? name = some f) :
    ∃ c ∈ (Text.trim name.toList).head?, isLetter c = true := by
  obtain ⟨c, rest, hrest, hletter⟩ : ∃ c rest, f.spelling.toList = c :: rest ∧ isLetter c = true := by
    cases f <;> exact ⟨_, _, rfl, by decide⟩
  have hlower := lower_of_ofName? h
  rw [hrest] at hlower
  obtain ⟨d, tail, htrim, rfl, -⟩ := List.map_eq_cons_iff.mp hlower
  exact ⟨d, by rw [htrim]; rfl, isLetter_of_toLower hletter⟩

theorem ofName?_eq_some_iff {name : String} (hname : ∀ c ∈ name.toList, isBlank c = false)
    {f : AggregateFn} : AggregateFn.ofName? name = some f ↔ lowercase name = f.spelling := by
  have htrim := (Text.tight_of_not_blank hname).trim_eq
  constructor
  · intro h
    have hlower := lower_of_ofName? h
    rw [htrim] at hlower
    rw [lowercase, ← Text.lower, hlower, String.ofList_toList]
  · intro h
    rw [AggregateFn.ofName?, htrim, Text.lower, ← lowercase, h]
    cases f <;> rfl

theorem ofName?_eq_none_iff {name : String} (hname : ∀ c ∈ name.toList, isBlank c = false) :
    AggregateFn.ofName? name = none ↔ lowercase name ∉ "count" :: gathering := by
  constructor
  · intro h hmem
    have hspelling : ∃ f : AggregateFn, lowercase name = f.spelling := by
      simp only [gathering, List.mem_cons, List.not_mem_nil, or_false] at hmem
      rcases hmem with he | he | he | he | he
      · exact ⟨.count, he⟩
      · exact ⟨.sum, he⟩
      · exact ⟨.avg, he⟩
      · exact ⟨.min, he⟩
      · exact ⟨.max, he⟩
    obtain ⟨f, hf⟩ := hspelling
    rw [(ofName?_eq_some_iff hname).mpr hf] at h
    cases h
  · intro h
    refine Option.eq_none_iff_forall_ne_some.mpr fun f hf => h ?_
    rw [(ofName?_eq_some_iff hname).mp hf]
    cases f <;> decide

theorem spelling_mem_gathering {f : AggregateFn} (h : f ≠ .count) :
    f.spelling ∈ gathering ∧ f.spelling ≠ "count" ∧ f.key = "$" ++ f.spelling := by
  cases f with
  | count => exact absurd rfl h
  | _ => decide

theorem callKey_of_ofName? {name : String} {f : AggregateFn}
    (hname : ∀ c ∈ name.toList, isBlank c = false) (h : AggregateFn.ofName? name = some f)
    (hcount : f ≠ .count) : Expr.callKey name = f.key := by
  rw [callKey_eq, (ofName?_eq_some_iff hname).mp h, (spelling_mem_gathering hcount).2.2]

theorem not_blank_before {text : List Char} (h : Tidy text) (c : Char) :
    ∀ d ∈ Text.before c text, isBlank d = false :=
  fun d hd => h.not_blank d (List.takeWhile_subset _ hd)

theorem tight_before {text : List Char} (h : Tidy text) (c : Char) :
    Text.Tight (Text.before c text) :=
  Text.tight_of_not_blank (not_blank_before h c)

theorem functionName_toList {text : String} (h : Tidy text.toList) :
    (functionName text).toList = Text.before '(' text.toList := by
  rw [functionName, String.toList_ofList, (tight_before h '(').trim_eq]

theorem exists_of_ofCall {function text : String} {accumulator : Accumulator}
    (h : Accumulator.ofCall function text = .ok accumulator) :
    ∃ f field, AggregateFn.ofName? function = some f ∧ field ≠ [] ∧
      field = Text.trimOf ['(', ')', ' '] (Text.eraseFirst function.toList text.toList) ∧
      accumulator = .ofField f (String.ofList ('$' :: field)) := by
  unfold Accumulator.ofCall at h
  split at h
  · cases h
  · rename_i f hf
    simp only at h
    split at h
    · cases h
    · rename_i hfield
      cases h
      exact ⟨f, _, hf, by simpa using hfield, rfl, rfl⟩

theorem eraseFirst_takeWhile (p : Char → Bool) (text : List Char) :
    Text.eraseFirst (text.takeWhile p) text = text.dropWhile p := by
  cases text with
  | nil => rfl
  | cons c text =>
    rw [Text.eraseFirst, if_pos (List.isPrefixOf_iff_prefix.mpr (List.takeWhile_prefix p))]
    calc (c :: text).drop ((c :: text).takeWhile p).length
        = ((c :: text).takeWhile p ++ (c :: text).dropWhile p).drop
            ((c :: text).takeWhile p).length := by rw [List.takeWhile_append_dropWhile]
      _ = (c :: text).dropWhile p := List.drop_left

theorem value_ofField {f : AggregateFn} (h : f ≠ .count) (field : String) :
    (Accumulator.ofField f field).value = .document [("$" ++ f.spelling, .string field)] := by
  cases f with
  | count => exact absurd rfl h
  | _ => rfl

theorem value_ofField_count (field : String) :
    (Accumulator.ofField .count ("$" ++ field)).value = .document [("$sum",
      if field = "*" then .int 1 else Accumulator.presence ("$" ++ field))] := by
  have hstar : "$*" = "$" ++ "*" := rfl
  rw [Accumulator.ofField, hstar]
  simp only [String.append_right_inj]
  split <;> rfl

theorem callDocument_of_ofCall {text : String} {accumulator : Accumulator}
    (htidy : Tidy text.toList)
    (h : Accumulator.ofCall (functionName text) text = .ok accumulator) :
    callDocument text = some accumulator.value := by
  obtain ⟨f, field, hf, hne, hfield, rfl⟩ := exists_of_ofCall h
  have hblank : ∀ c ∈ (functionName text).toList, isBlank c = false := by
    rw [functionName_toList htidy]
    exact not_blank_before htidy '('
  have hname := (ofName?_eq_some_iff hblank).mp hf
  rw [← String.ofList_toList (s := functionName text), functionName_toList htidy,
    Text.before] at hname
  rw [functionName_toList htidy, Text.before, eraseFirst_takeWhile] at hfield
  have hdollar : String.ofList ('$' :: field) = "$" ++ String.ofList field := by
    rw [← String.toList_inj]
    simp
  have hempty : String.ofList field ≠ "" := by simpa using hne
  simp only [callDocument, hname, ← hfield, hdollar, if_neg hempty]
  by_cases hcount : f = .count
  · subst hcount
    have hspelling : AggregateFn.count.spelling = "count" := rfl
    rw [if_neg (by decide), if_pos hspelling, value_ofField_count]
    rfl
  · rw [if_pos (spelling_mem_gathering hcount).1, value_ofField hcount]

theorem exists_letter_of_ofCall {text : String} {accumulator : Accumulator}
    (htidy : Tidy text.toList)
    (h : Accumulator.ofCall (functionName text) text = .ok accumulator) :
    ∃ c rest, text.toList = c :: rest ∧ isLetter c = true := by
  obtain ⟨f, -, hf, -, -, -⟩ := exists_of_ofCall h
  obtain ⟨c, hc, hletter⟩ := exists_letter_of_ofName? hf
  rw [functionName_toList htidy, (tight_before htidy '(').trim_eq, Text.before,
    List.head?_takeWhile] at hc
  obtain ⟨rest, hrest⟩ := List.head?_eq_some_iff.mp (Option.filter_eq_some_iff.mp hc).1
  exact ⟨c, rest, hrest, hletter⟩

theorem number?_of_ofCall {text : String} {accumulator : Accumulator} (htidy : Tidy text.toList)
    (h : Accumulator.ofCall (functionName text) text = .ok accumulator) :
    Literal.number? text.toList = none := by
  obtain ⟨c, rest, hrest, hletter⟩ := exists_letter_of_ofCall htidy h
  have hstart : Lexeme.isNameStart c = true := by simp [Lexeme.isNameStart, hletter]
  have htight := Text.tight_of_not_blank htidy.not_blank
  rw [hrest] at htight ⊢
  rw [Literal.number?, Numeral.read?_of_isNameStart hstart htight]
  rfl

/-! ### Keys of accumulators -/

theorem mem_hexDigits_of_mem_toDigits {n : Nat} {c : Char} (h : c ∈ Nat.toDigits 16 n) :
    c ∈ "0123456789abcdef".toList := by
  have hdigit : ∀ d < 16, Nat.digitChar d ∈ "0123456789abcdef".toList := by decide
  induction n using Nat.strongRecOn with
  | ind n ih =>
    by_cases hn : n < 16
    · rw [Nat.toDigits_of_lt_base hn, List.mem_singleton] at h
      exact h ▸ hdigit n hn
    · have hsplit := Nat.toDigits_append_toDigits (b := 16) (n := n / 16) (d := n % 16)
        (by decide) (by omega) (by omega)
      rw [Nat.div_add_mod] at hsplit
      rw [← hsplit, List.mem_append] at h
      rcases h with h | h
      · exact ih (n / 16) (by omega) h
      · exact ih (n % 16) (by omega) h

theorem bare_temporaryKey (e : Expr) : Bare (temporaryKey e).toList := by
  have hdigit : ∀ c ∈ "0123456789abcdef".toList, isBlank c = false ∧ c ≠ '(' ∧ c ≠ ')' := by
    decide
  have hstart : ∀ c ∈ "__tmp_expression_".toList, isBlank c = false ∧ c ≠ '(' ∧ c ≠ ')' := by
    decide
  have hhash : ∀ c ∈ e.contentHash.toList, c ∈ "0123456789abcdef".toList := by
    intro c hc
    rw [Expr.contentHash, String.toList_ofList, List.mem_append] at hc
    rcases hc with hc | hc
    · rw [List.eq_of_mem_replicate hc]
      decide
    · exact mem_hexDigits_of_mem_toDigits hc
  have hall : ∀ c ∈ (temporaryKey e).toList, isBlank c = false ∧ c ≠ '(' ∧ c ≠ ')' := by
    intro c hc
    have happend : (temporaryKey e).toList = "__tmp_expression_".toList ++ e.contentHash.toList :=
      String.toList_append
    rw [happend, List.mem_append] at hc
    rcases hc with hc | hc
    · exact hstart c hc
    · exact hdigit c (hhash c hc)
  obtain ⟨rest, hrest⟩ := temporaryKey_toList e
  exact ⟨by simp [hrest], fun c hc => (hall c hc).1, fun c hc => (hall c hc).2⟩

theorem contentHash_of_temporaryKey {e other : Expr} (h : temporaryKey e = temporaryKey other) :
    e.contentHash = other.contentHash :=
  (String.append_right_inj _).mp h

theorem ofCall_temporaryKey_ne {e : Expr} {accumulator : Accumulator} :
    Accumulator.ofCall (functionName (temporaryKey e)) (temporaryKey e) ≠ .ok accumulator := by
  intro h
  obtain ⟨c, rest, hc, hletter⟩ := exists_letter_of_ofCall (bare_temporaryKey e).tidy h
  obtain ⟨tail, htail⟩ := temporaryKey_toList e
  rw [htail] at hc
  cases hc
  exact absurd hletter (by decide)

/-- The accumulator that a key stands for: that of the call which the key spells, read as an item
or as an operand, or that of a call over an expression. -/
inductive Denotes (calls : List Expr) : String → Accumulator → Prop where
  | item {key text : String} {accumulator : Accumulator} (read : Expr.read key = .ok (.leaf text))
    (called : Accumulator.ofCall (functionName text) text = .ok accumulator) :
    Denotes calls key accumulator
  | operand {text : String} {accumulator : Accumulator} (tidy : Tidy text.toList)
    (called : Accumulator.ofCall (functionName text) text = .ok accumulator) :
    Denotes calls text accumulator
  | call {function : String} {argument : Expr} {f : AggregateFn}
    (mem : .call function argument ∈ calls) (key_eq : Expr.callKey function = f.key) :
    Denotes calls (temporaryKey (.call function argument))
      (.custom (.document [(Expr.callKey function, fieldRefs argument)]))

theorem callKey_lowercase (function : String) :
    Expr.callKey (lowercase function) = Expr.callKey function := by
  have hlower : ∀ c : Char, c.toLower.toLower = c.toLower := by
    intro c
    unfold Char.toLower
    grind
  simp [callKey_eq, lowercase, Function.comp_def, hlower]

theorem fieldRefs_lowered (e : Expr) : fieldRefs e.lowered = fieldRefs e := by
  induction e with
  | leaf text => rfl
  | binary op left right hleft hright => simp [Expr.lowered, fieldRefs, hleft, hright]
  | call function argument ih => simp [Expr.lowered, fieldRefs, callKey_lowercase, ih]

theorem fieldRefs_eq_overFields (e : Expr) : fieldRefs e = overFields e := by
  induction e with
  | leaf text => rfl
  | binary op left right hleft hright =>
    rw [fieldRefs, overFields, key_eq_operatorName, hleft, hright]
  | call function argument ih => rw [fieldRefs, overFields, callKey_eq, ih]

/-- The hash tells calls apart that differ in more than the letter case of functions. -/
def Separated (calls : List Expr) : Prop :=
  ∀ e ∈ calls, ∀ other ∈ calls, e.contentHash = other.contentHash → e.lowered = other.lowered

instance (calls : List Expr) : Decidable (Separated calls) :=
  inferInstanceAs (Decidable (∀ e ∈ calls, ∀ other ∈ calls,
    e.contentHash = other.contentHash → e.lowered = other.lowered))

theorem Denotes.unique {calls : List Expr} (hcalls : Separated calls) {key : String}
    {accumulator other : Accumulator} (h : Denotes calls key accumulator)
    (h' : Denotes calls key other) : accumulator = other := by
  -- A key of the third kind starts with an underscore and calls nothing, so it is of no other kind.
  have htemporary : ∀ {e : Expr} {text : String} {a : Accumulator},
      Expr.read (temporaryKey e) = .ok (.leaf text) →
      Accumulator.ofCall (functionName text) text ≠ .ok a := by
    intro e text a hread
    rw [eq_of_read_leaf (bare_temporaryKey e).tidy hread]
    exact ofCall_temporaryKey_ne
  generalize hkey : key = other_key at h'
  cases h with
  | item hread hcalled =>
    cases h' with
    | item hread' hcalled' =>
      subst hkey
      cases hread.symm.trans hread'
      exact Except.ok.inj (hcalled.symm.trans hcalled')
    | operand htidy hcalled' =>
      subst hkey
      rw [eq_of_read_leaf htidy hread] at hcalled
      exact Except.ok.inj (hcalled.symm.trans hcalled')
    | call => exact absurd hcalled (htemporary (hkey ▸ hread))
  | operand htidy hcalled =>
    cases h' with
    | item hread' hcalled' =>
      subst hkey
      rw [eq_of_read_leaf htidy hread'] at hcalled'
      exact Except.ok.inj (hcalled.symm.trans hcalled')
    | operand htidy' hcalled' =>
      subst hkey
      exact Except.ok.inj (hcalled.symm.trans hcalled')
    | call => exact absurd hcalled (hkey ▸ ofCall_temporaryKey_ne)
  | call hmem _ =>
    cases h' with
    | item hread' hcalled' => exact absurd hcalled' (htemporary (hkey ▸ hread'))
    | operand htidy' hcalled' => exact absurd hcalled' (hkey ▸ ofCall_temporaryKey_ne)
    | call hmem' _ =>
      -- Two calls under one key have one hash, and separated calls with one hash differ in letter
      -- case only.
      have hlowered := hcalls _ hmem _ hmem' (contentHash_of_temporaryKey hkey)
      have hvalue := congrArg fieldRefs hlowered
      rw [fieldRefs_lowered, fieldRefs_lowered] at hvalue
      rw [fieldRefs, fieldRefs] at hvalue
      rw [hvalue]

/-! ### Registering -/

/-- Every key is there once, with the accumulator that it denotes. -/
structure Kept (calls : List Expr) (registered : List (String × Accumulator)) : Prop where
  nodup : (keysOf registered).Nodup
  denotes : ∀ entry ∈ registered, Denotes calls entry.1 entry.2

theorem prefix_register (key : String) (accumulator : Accumulator)
    (registered : List (String × Accumulator)) :
    registered <+: register key accumulator registered := by
  unfold register
  split
  · exact List.prefix_rfl
  · exact List.prefix_append _ _

theorem Kept.register {calls : List Expr} {registered : List (String × Accumulator)}
    (h : Kept calls registered) {key : String} {accumulator : Accumulator}
    (hkey : Denotes calls key accumulator) :
    Kept calls (register key accumulator registered) := by
  unfold Aggregation.register
  split
  · exact h
  · rename_i hnew
    have hnotMem : key ∉ keysOf registered := by simpa [keysOf] using hnew
    constructor
    · rw [keysOf, List.map_append]
      exact h.nodup.append (List.nodup_singleton key) (by simpa using hnotMem)
    · intro entry hentry
      rcases List.mem_append.mp hentry with hold | hnew
      · exact h.denotes entry hold
      · rw [List.mem_singleton.mp hnew]
        exact hkey

theorem Kept.lookup_register {calls : List Expr} (hcalls : Separated calls)
    {registered : List (String × Accumulator)} (h : Kept calls registered) {key : String}
    {accumulator : Accumulator} (hkey : Denotes calls key accumulator) :
    (Aggregation.register key accumulator registered).lookup key = some accumulator := by
  have hmem : key ∈ keysOf (Aggregation.register key accumulator registered) :=
    mem_keysOf_register.mpr (.inl rfl)
  cases hlookup : (Aggregation.register key accumulator registered).lookup key with
  | none =>
    obtain ⟨entry, hentry, he⟩ := List.mem_map.mp hmem
    have hne := List.lookup_eq_none_iff.mp hlookup entry hentry
    simp [he] at hne
  | some found =>
    obtain ⟨front, back, heq, -⟩ := List.lookup_eq_some_iff.mp hlookup
    have hfound := (h.register hkey).denotes (key, found) (by simp [heq])
    exact congrArg some (hfound.unique hcalls hkey)

/-- A projection stands for a value, whatever is registered later. -/
def Expands (registered : List (String × Accumulator)) (projected value : Value) : Prop :=
  ∀ later, registered <+: later → expand later projected = value

theorem Expands.mono {before after : List (String × Accumulator)} (hsub : before <+: after)
    {projected value : Value} (h : Expands before projected value) :
    Expands after projected value :=
  fun later hlater => h later (hsub.trans hlater)

theorem expands_number {text : List Char} {value : Value} (h : Literal.number? text = some value)
    (registered : List (String × Accumulator)) : Expands registered value value := by
  obtain ⟨n, -, hn⟩ := Option.bind_eq_some_iff.mp h
  intro later _
  unfold Numeral.value? at hn
  split at hn
  · split at hn <;> cases hn <;> rfl
  · cases hn

theorem expands_reference {registered : List (String × Accumulator)} {key : String}
    {accumulator : Accumulator} (h : registered.lookup key = some accumulator) :
    Expands registered (reference key) accumulator.value := by
  rintro later ⟨rest, rfl⟩
  have hlist : ("$" ++ key).toList = '$' :: key.toList := String.toList_append
  have hreferent : referent? (registered ++ rest) ("$" ++ key) = some accumulator := by
    simp [referent?, hlist, List.lookup_append, h]
  simp [reference, expand, hreferent]

theorem Expands.binary {registered : List (String × Accumulator)} {l r left right : Value}
    (hleft : Expands registered l left) (hright : Expands registered r right) (op : ArithOp) :
    Expands registered (.document [(op.key, .array [l, r])])
      (.document [(op.key, .array [left, right])]) := by
  intro later hlater
  simp [expand, expandFields, expandItems, hleft later hlater, hright later hlater]

theorem Expands.call {registered : List (String × Accumulator)} {projected value : Value}
    (h : Expands registered projected value) (function : String) :
    Expands registered (.document [(Expr.callKey function, projected)])
      (.document [(Expr.callKey function, value)]) := by
  intro later hlater
  simp [expand, expandFields, h later hlater]

theorem Kept.expands_register {calls : List Expr} (hcalls : Separated calls)
    {registered : List (String × Accumulator)} (h : Kept calls registered) {key : String}
    {accumulator : Accumulator} (hkey : Denotes calls key accumulator) :
    registered <+: Aggregation.register key accumulator registered ∧
      Kept calls (Aggregation.register key accumulator registered) ∧
      Expands (Aggregation.register key accumulator registered) (reference key)
        accumulator.value :=
  ⟨prefix_register _ _ _, h.register hkey, expands_reference (h.lookup_register hcalls hkey)⟩

theorem denotes_count (calls : List Expr) : Denotes calls "count(*)" .countAll :=
  .operand ⟨by decide, by decide⟩ rfl

/-- Flattening keeps what is registered, and its result stands for the expression. -/
theorem flatten_expands {calls : List Expr} (hcalls : Separated calls) {e : Expr}
    {before after : List (String × Accumulator)} {projected : Value}
    (htidy : ∀ name ∈ e.operands, Tidy name.toList) (hsub : e.aggregateCalls ⊆ calls)
    (hbefore : Kept calls before) (h : flatten before e = .ok (projected, after)) :
    before <+: after ∧ Kept calls after ∧
      ∃ value, direct e = some value ∧ Expands after projected value := by
  -- The accumulators only grow, so what the left side of an operator expands to is not changed by
  -- the right side.
  induction e generalizing before after projected with
  | leaf text =>
    simp only [flatten] at h
    cases hnumber : Literal.number? text.toList with
    | some number =>
      simp only [hnumber, Except.ok.injEq, Prod.mk.injEq] at h
      obtain ⟨rfl, rfl⟩ := h
      exact ⟨List.prefix_rfl, hbefore, number, by simp [direct, hnumber],
        expands_number hnumber _⟩
    | none =>
      simp only [hnumber] at h
      obtain ⟨accumulator, hcall, h⟩ := exists_of_bind_eq_ok h
      cases h
      have htext : Tidy text.toList := htidy text (by simp [Expr.operands])
      obtain ⟨hgrow, hkept, hexpands⟩ :=
        hbefore.expands_register hcalls (.operand htext hcall)
      refine ⟨hgrow, hkept, accumulator.value, ?_, hexpands⟩
      rw [direct, hnumber, Option.none_or, callDocument_of_ofCall htext hcall]
  | binary op left right hleft hright =>
    simp only [flatten] at h
    obtain ⟨⟨l, mid⟩, hl, h⟩ := exists_of_bind_eq_ok h
    obtain ⟨⟨r, last⟩, hr, h⟩ := exists_of_bind_eq_ok h
    cases h
    simp only [Expr.operands, List.mem_append, or_imp, forall_and] at htidy
    simp only [Expr.aggregateCalls, List.append_subset] at hsub
    obtain ⟨hmid, hkept, lvalue, hldirect, hlexpands⟩ := hleft htidy.1 hsub.1 hbefore hl
    obtain ⟨hlast, hkept, rvalue, hrdirect, hrexpands⟩ := hright htidy.2 hsub.2 hkept hr
    refine ⟨hmid.trans hlast, hkept, _, ?_, (hlexpands.mono hlast).binary hrexpands op⟩
    simp [direct, hldirect, hrdirect, key_eq_operatorName]
  | call function argument ih =>
    have hfunction := (htidy function (by simp [Expr.operands])).not_blank
    simp only [flatten] at h
    -- Three kinds of calls: a count, another aggregate, and a function that is no aggregate.
    split at h
    · rename_i hname
      cases h
      obtain ⟨hgrow, hkept, hexpands⟩ := hbefore.expands_register hcalls (denotes_count calls)
      refine ⟨hgrow, hkept, _, ?_, hexpands⟩
      have hspelling : lowercase function = "count" := (ofName?_eq_some_iff hfunction).mp hname
      rw [direct, if_pos hspelling]
      rfl
    · rename_i f hcount hname
      cases h
      have hcount' : f ≠ .count := by simpa using hcount
      have hspelling := (ofName?_eq_some_iff hfunction).mp hname
      obtain ⟨hgathers, hother, -⟩ := spelling_mem_gathering hcount'
      rw [← hspelling] at hgathers hother
      have hmem : .call function argument ∈ calls :=
        hsub (by simp [Expr.aggregateCalls, hgathers])
      obtain ⟨hgrow, hkept, hexpands⟩ := hbefore.expands_register hcalls
        (.call hmem (callKey_of_ofName? hfunction hname hcount'))
      refine ⟨hgrow, hkept, _, ?_, hexpands⟩
      rw [direct, if_neg hother, if_pos hgathers, Accumulator.value, callKey_eq,
        fieldRefs_eq_overFields]
    · rename_i hname
      obtain ⟨⟨inner, last⟩, hi, h⟩ := exists_of_bind_eq_ok h
      cases h
      have hoperands : ∀ name ∈ argument.operands, Tidy name.toList :=
        fun name hmem => htidy name (List.mem_cons_of_mem _ hmem)
      have hother := (ofName?_eq_none_iff hfunction).mp hname
      have hinner : argument.aggregateCalls ⊆ calls := by
        rwa [Expr.aggregateCalls, if_neg hother, List.nil_append] at hsub
      obtain ⟨hlast, hkept, value, hdirect, hexpands⟩ := ih hoperands hinner hbefore hi
      refine ⟨hlast, hkept, _, ?_, hexpands.call function⟩
      rw [List.mem_cons, not_or] at hother
      rw [direct, if_neg hother.1, if_neg hother.2, hdirect, Option.map_some, callKey_eq]

/-! ### Items -/

/-- The function that an item names is the one in front of the bracket. -/
def NamesFunction (item : SelectItem) : Prop :=
  ∀ function ∈ item.function, ∀ text, Expr.read item.expr = .ok (.leaf text) →
    function.toList = Text.before '(' text.toList

theorem NamesFunction.getD_eq {item : SelectItem} (h : NamesFunction item) {text : String}
    (hread : Expr.read item.expr = .ok (.leaf text)) :
    item.function.getD (functionName text) = functionName text := by
  cases hfunction : item.function with
  | none => rfl
  | some function =>
    have htidy : Tidy text.toList := tidy_of_read hread text (by simp [Expr.operands])
    have hname := h function hfunction text hread
    rw [← functionName_toList htidy] at hname
    exact String.toList_inj.mp hname

theorem Kept.addItem {calls : List Expr} (hcalls : Separated calls) {a b : Aggregation}
    (ha : Kept calls a.accumulators) {item : SelectItem} (hitem : NamesFunction item)
    (hsub : ∀ e, Expr.read item.expr = .ok e → e.aggregateCalls ⊆ calls)
    (h : addItem a item = .ok b) :
    a.accumulators <+: b.accumulators ∧ Kept calls b.accumulators ∧
      ∃ e value projected, Expr.read item.expr = .ok e ∧ direct e = some value ∧
        b.projections = a.projections.insert (outputName item) projected ∧
        Expands b.accumulators projected value := by
  rcases addItem_cases h with ⟨text, accumulator, hread, hcall, rfl⟩ |
    ⟨e, projected, accumulators, hread, -, hflat, rfl⟩
  · rw [hitem.getD_eq hread] at hcall
    have htidy : Tidy text.toList := tidy_of_read hread text (by simp [Expr.operands])
    obtain ⟨hgrow, hkept, hexpands⟩ := ha.expands_register hcalls (.item hread hcall)
    refine ⟨hgrow, hkept, _, _, _, hread, ?_, rfl, hexpands⟩
    rw [direct, number?_of_ofCall htidy hcall, Option.none_or, callDocument_of_ofCall htidy hcall]
  · obtain ⟨hgrow, hkept, value, hdirect, hexpands⟩ :=
      flatten_expands hcalls (tidy_of_read hread) (hsub e hread) ha hflat
    exact ⟨hgrow, hkept, e, value, projected, hread, hdirect, rfl, hexpands⟩

theorem aggregateCalls_subset {items : List SelectItem} {item : SelectItem} (hmem : item ∈ items)
    {e : Expr} (h : Expr.read item.expr = .ok e) : e.aggregateCalls ⊆ aggregateCalls items := by
  intro call hcall
  exact List.mem_flatMap.mpr ⟨item, hmem, by simpa [h] using hcall⟩

theorem Kept.foldlM {items : List SelectItem} (hcalls : Separated (aggregateCalls items))
    (hfunction : ∀ item ∈ items, NamesFunction item) {run : List SelectItem} (hrun : run ⊆ items)
    {a b : Aggregation} (ha : Kept (aggregateCalls items) a.accumulators)
    (h : run.foldlM Aggregation.addItem a = .ok b) :
    a.accumulators <+: b.accumulators ∧ Kept (aggregateCalls items) b.accumulators := by
  refine foldlM_addItem (P := fun c => a.accumulators <+: c.accumulators ∧
    Kept (aggregateCalls items) c.accumulators) ?_ h ⟨List.prefix_rfl, ha⟩
  rintro item hitem c d ⟨hgrow, hc⟩ hd
  obtain ⟨hnext, hkept, -⟩ := hc.addItem hcalls (hfunction item (hrun hitem))
    (fun e => aggregateCalls_subset (hrun hitem)) hd
  exact ⟨hgrow.trans hnext, hkept⟩

/-- Items in the order in which they are processed: those without an operator come first. -/
def processed (items : List SelectItem) : List SelectItem :=
  items.filter (!Expr.isComposite ·.expr) ++ items.filter (Expr.isComposite ·.expr)

theorem get?_foldlM {items : List SelectItem} {a b : Aggregation} {name : String}
    (hname : ∀ item ∈ items, outputName item ≠ name) (h : items.foldlM addItem a = .ok b) :
    b.projections.get? name = a.projections.get? name := by
  refine foldlM_addItem (P := fun c => c.projections.get? name = a.projections.get? name) ?_ h rfl
  intro item hitem c d hc hd
  obtain ⟨value, hvalue⟩ := exists_insert_of_addItem hd
  rw [hvalue, Document.get?_insert, if_neg (hname item hitem).symm, hc]

theorem Denotes.exists_value {calls : List Expr} {key : String} {accumulator : Accumulator}
    (h : Denotes calls key accumulator) :
    ∃ (f : AggregateFn) (body : Value), accumulator.value = .document [(f.key, body)] := by
  have hcall : ∀ {text : String}, Accumulator.ofCall (functionName text) text = .ok accumulator →
      ∃ (f : AggregateFn) (body : Value), accumulator.value = .document [(f.key, body)] := by
    intro text hcall
    obtain ⟨f, field, -, -, -, rfl⟩ := exists_of_ofCall hcall
    refine ⟨f, ?_⟩
    cases f with
    | count =>
      unfold Accumulator.ofField
      simp only
      split <;> exact ⟨_, rfl⟩
    | _ => exact ⟨_, rfl⟩
  cases h with
  | item _ hcalled => exact hcall hcalled
  | operand _ hcalled => exact hcall hcalled
  | @call _ argument f _ hkey => exact ⟨f, fieldRefs argument, by rw [Accumulator.value, hkey]⟩

/-- Sharing changes nothing: with the accumulators put back, each projection is the expression of
its item. -/
theorem projections_expand_to_direct {items : List SelectItem} {a : Aggregation}
    (hfunction : ∀ item ∈ items, NamesFunction item) (hhash : Separated (aggregateCalls items))
    (h : ofItems items = .ok a) :
    (keysOf a.accumulators).Nodup ∧
    (∀ entry ∈ a.accumulators, ∃ key body, entry.2.value = .document [(key, body)] ∧
      key ∈ ["$sum", "$avg", "$min", "$max"]) ∧
    ∀ front item back, processed items = front ++ item :: back →
      (∀ later ∈ back, outputName later ≠ outputName item) →
      ∃ e projected, Expr.read item.expr = .ok e ∧
        a.projections.get? (outputName item) = some projected ∧
        direct e = some (expand a.accumulators projected) := by
  have hmem : processed items ⊆ items := fun item => mem_single_append_composite.mp
  have hstart : Kept (aggregateCalls items) [] := ⟨List.nodup_nil, by simp⟩
  have hend : Kept (aggregateCalls items) a.accumulators :=
    (Kept.foldlM hhash hfunction hmem hstart h).2
  refine ⟨hend.nodup, fun entry hentry => ?_, fun front item back hsplit hback => ?_⟩
  · obtain ⟨f, body, hvalue⟩ := (hend.denotes entry hentry).exists_value
    exact ⟨f.key, body, hvalue, by cases f <;> decide⟩
  · have hrun : (front ++ item :: back).foldlM addItem {} = .ok a := hsplit ▸ h
    rw [List.foldlM_append] at hrun
    obtain ⟨mid, hmid, hrun⟩ := exists_of_bind_eq_ok hrun
    rw [List.foldlM_cons] at hrun
    obtain ⟨next, hnext, hrun⟩ := exists_of_bind_eq_ok hrun
    rw [hsplit, List.append_subset, List.cons_subset] at hmem
    obtain ⟨hfront, hitem, hlater⟩ := hmem
    obtain ⟨-, hkept⟩ := Kept.foldlM hhash hfunction hfront hstart hmid
    obtain ⟨-, hkept, e, value, projected, hread, hdirect, hprojections, hexpands⟩ :=
      hkept.addItem hhash (hfunction item hitem) (fun e => aggregateCalls_subset hitem) hnext
    obtain ⟨hgrow, -⟩ := Kept.foldlM hhash hfunction hlater hkept hrun
    refine ⟨e, projected, hread, ?_, ?_⟩
    · rw [get?_foldlM hback hrun, hprojections, Document.get?_insert, if_pos rfl]
    · rw [hdirect, hexpands _ hgrow]

/-- Three items that share an average over a sum, in two letter cases, and one over a field. -/
def sharingItems : List SelectItem :=
  [⟨"avg(a + b) / count(*)", some "avg", none⟩,
   ⟨"AVG( a+b ) - avg(c) * count(d) + 2", some "AVG", some "rest"⟩,
   ⟨"avg(c)", some "avg", some "mean"⟩]

theorem projections_expand_to_direct_sharingItems :
    ∃ a projected, ofItems sharingItems = .ok a ∧ a.accumulators.length = 4 ∧
      a.projections.get? "rest" = some projected ∧
      expand a.accumulators projected = .document [("$add", .array
        [.document [("$subtract", .array
          [.document [("$avg", .document [("$add", .array [.string "$a", .string "$b"])])],
           .document [("$multiply", .array
            [.document [("$avg", .string "$c")],
             .document [("$sum", .document [("$cond", .array
              [.document [("$ne", .array
                [.document [("$type", .string "$d")], .string "missing"])],
               .int 1, .int 0])])]])]])],
         .int 2])] := by
  obtain ⟨a, ha, hlength⟩ : ∃ a, ofItems sharingItems = .ok a ∧ a.accumulators.length = 4 :=
    ⟨_, rfl, by decide +kernel⟩
  have hread : Expr.read "AVG( a+b ) - avg(c) * count(d) + 2" = .ok (.binary .add
      (.binary .subtract (.call "AVG" (.binary .add (.leaf "a") (.leaf "b")))
        (.binary .multiply (.leaf "avg(c)") (.leaf "count(d)")))
      (.leaf "2")) := rfl
  have hfunction : ∀ item ∈ sharingItems, NamesFunction item := by
    intro item hitem function hfunction text hleaf
    simp only [sharingItems, List.mem_cons, List.not_mem_nil, or_false] at hitem
    rcases hitem with rfl | rfl | rfl
    · cases hleaf
    · cases hleaf
    · cases hleaf
      cases hfunction
      decide
  obtain ⟨-, -, hprojections⟩ := projections_expand_to_direct hfunction (by decide +kernel) ha
  obtain ⟨e, projected, he, hget, hdirect⟩ := hprojections
    [⟨"avg(c)", some "avg", some "mean"⟩, ⟨"avg(a + b) / count(*)", some "avg", none⟩]
    ⟨"AVG( a+b ) - avg(c) * count(d) + 2", some "AVG", some "rest"⟩ [] (by decide +kernel)
    (by simp)
  cases hread.symm.trans he
  exact ⟨a, projected, ha, hlength, hget, (Option.some.inj hdirect).symm⟩

end Aggregation

end DocQuery
