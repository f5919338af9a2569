import DocQuery.Proofs.Filter.Normal

/-! Rendering a filter as a document inserts one entry after another, and an entry whose key is
already there would replace an earlier one. On the filters that can be built this never happens:
the document lists the clauses. -/

namespace DocQuery

namespace Document

theorem insert_of_notMem {doc : Document} {key : String} (h : key ∉ doc.keys) (value : Value) :
    doc.insert key value = doc ++ [(key, value)] := by
  induction doc with
  | nil => rfl
  | cons entry doc ih =>
    obtain ⟨k, v⟩ := entry
    have hk : k ≠ key := fun he => h (by simp [keys, he])
    have hdoc : key ∉ keys doc := fun hm => h (List.mem_cons_of_mem k hm)
    simp [insert, hk, ih hdoc]

theorem insertAll_eq_append {doc : Document} {fields : List (String × Value)}
    (h : (keys (doc ++ fields)).Nodup) : doc.insertAll fields = doc ++ fields := by
  induction fields generalizing doc with
  | nil => simp [insertAll]
  | cons entry fields ih =>
    obtain ⟨key, value⟩ := entry
    have hsplit : keys (doc ++ (key, value) :: fields) = keys doc ++ key :: keys fields := by
      simp [keys]
    have hkey : key ∉ keys doc := by
      rw [hsplit, List.nodup_append] at h
      exact fun hm => h.2.2 key hm key List.mem_cons_self rfl
    have hstep : doc.insertAll ((key, value) :: fields) =
        (doc ++ [(key, value)]).insertAll fields := by
      rw [← insert_of_notMem hkey]
      rfl
    rw [hstep, ih (by simpa using h)]
    simp

theorem insertAll_nil {fields : List (String × Value)} (h : (fields.map (·.1)).Nodup) :
    insertAll [] fields = fields :=
  insertAll_eq_append h

end Document

def Predicate.image : Predicate → Value
  | equals value => value
  | pattern text => .pattern text
  | operators ops => .document (ops.map fun (op, value) => (op.key, value))

mutual

def Clause.image : Clause → Value
  | .field _ predicate => predicate.image
  | .and members => .array (Clause.memberImages members)
  | .or members => .array (Clause.memberImages members)

def Clause.memberImages : List (List Clause) → List Value
  | [] => []
  | clauses :: members => .document (Clause.listing clauses) :: Clause.memberImages members

def Clause.listing : List Clause → List (String × Value)
  | [] => []
  | c :: clauses => (c.key, c.image) :: Clause.listing clauses

end

/-- The operator that a query calls by the given name. -/
def QueryOp.ofKey? : String → Option QueryOp
  | "$gt" => some gt
  | "$gte" => some gte
  | "$lt" => some lt
  | "$lte" => some lte
  | "$ne" => some ne
  | "$in" => some isIn
  | "$nin" => some notIn
  | "$not" => some not
  | _ => none

theorem QueryOp.ofKey?_key (op : QueryOp) : ofKey? op.key = some op := by
  cases op <;> rfl

theorem QueryOp.key_injective : Function.Injective QueryOp.key := by
  intro a b h
  have hsome : some a = some b := by rw [← ofKey?_key a, h, ofKey?_key]
  exact Option.some.inj hsome

theorem Predicate.Proper.value_eq_image {predicate : Predicate} (h : predicate.Proper) :
    predicate.value = predicate.image := by
  cases predicate with
  | equals value => rfl
  | pattern text => rfl
  | operators ops =>
    simp only [value, image]
    rw [Document.insertAll_nil]
    simpa [List.map_map, Function.comp_def] using h.2.map QueryOp.key_injective

namespace Filter

theorem keys_entries (f : Filter) : (Clause.entries f).map (·.1) = f.map Clause.key := by
  induction f with
  | nil => rfl
  | cons c f ih => simp [Clause.entries, ih]

theorem entries_eq_listing {f : Filter} (h : ∀ c ∈ f, c.value = c.image) :
    Clause.entries f = Clause.listing f := by
  induction f with
  | nil => rfl
  | cons c f ih =>
    simp only [Clause.entries, Clause.listing, h c List.mem_cons_self,
      ih fun d hd => h d (List.mem_cons_of_mem c hd)]

theorem memberValues_eq_memberImages {members : List Filter}
    (h : ∀ m ∈ members, m.document = Clause.listing m) :
    Clause.memberValues members = Clause.memberImages members := by
  induction members with
  | nil => rfl
  | cons m members ih =>
    have hm : Document.insertAll [] (Clause.entries m) = Clause.listing m :=
      h m List.mem_cons_self
    simp only [Clause.memberValues, Clause.memberImages, hm,
      ih fun d hd => h d (List.mem_cons_of_mem m hd)]

theorem Normal.document_eq_listing {P : String → Predicate → Prop}
    (hP : ∀ name predicate, P name predicate → predicate.Proper) {f : Filter} (h : f.Normal P) :
    f.document = Clause.listing f := by
  induction h with
  | mk keys flat members ih =>
    rename_i f
    have hdoc : f.document = Clause.entries f :=
      Document.insertAll_nil (by rw [keys_entries]; exact keys)
    rw [hdoc]
    apply entries_eq_listing
    intro c hc
    cases c with
    | field name predicate =>
      simpa [Clause.value, Clause.image] using (hP _ _ (flat _ hc)).value_eq_image
    | and fs =>
      simp only [Clause.value, Clause.image]
      exact congrArg Value.array (memberValues_eq_memberImages (ih _ hc))
    | or fs =>
      simp only [Clause.value, Clause.image]
      exact congrArg Value.array (memberValues_eq_memberImages (ih _ hc))

/-- Filters built from fields with proper predicates are normal at every level, and their documents
list every clause and every operator in order. -/
theorem built_normal_and_lossless (f : Filter) (h : f.Built fun _ => Predicate.Proper) :
    (f.Normal fun _ => Predicate.Proper) ∧ f.document = Clause.listing f := by
  have hnormal := h.normal closedUnderMerge_proper
  exact ⟨hnormal, hnormal.document_eq_listing fun _ _ hp => hp⟩

/-- A merged range beside a disjunction, one side of which is a nested conjunction. -/
theorem built_normal_and_lossless_range :
    let above : Filter := .ofField "a" (.operator .gt (.int 1))
    let below : Filter := .ofField "a" (.operator .lt (.int 5))
    let two : Filter := .ofField "b" (.equals (.int 2))
    let three : Filter := .ofField "b" (.equals (.int 3))
    let f := (above.and below).and ((two.and three).or above)
    (f.Built fun _ => Predicate.Proper) ∧ f.document.length = 2 ∧
      f.document = Clause.listing f := by
  intro above below two three f
  have habove : above.Built fun _ => Predicate.Proper := .field ⟨by simp, by simp⟩
  have hbelow : below.Built fun _ => Predicate.Proper := .field ⟨by simp, by simp⟩
  have htwo : two.Built fun _ => Predicate.Proper := .field trivial
  have hthree : three.Built fun _ => Predicate.Proper := .field trivial
  have hf : f.Built fun _ => Predicate.Proper :=
    (habove.and hbelow).and ((htwo.and hthree).or habove)
  exact ⟨hf, by decide, (built_normal_and_lossless f hf).2⟩

end Filter

end DocQuery
