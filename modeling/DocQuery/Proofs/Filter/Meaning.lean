import DocQuery.Proofs.Filter.Cases

/-! The meaning of filters under an arbitrary truth assignment to their atoms. Conjunction and
disjunction of filters are those of their meanings, whichever of the flat forms they take. -/

namespace DocQuery

/-- What a filter asks of a field, one condition at a time. -/
inductive Atom where
  | equals (value : Value)
  | pattern (text : String)
  | operator (op : QueryOp) (value : Value)

/-- Which atoms are true of which fields. -/
abbrev Truth := String → Atom → Bool

def Predicate.holds (σ : Truth) (name : String) : Predicate → Bool
  | equals value => σ name (.equals value)
  | pattern text => σ name (.pattern text)
  | operators ops => ops.all fun (op, value) => σ name (.operator op value)

mutual

def Clause.holds (σ : Truth) : Clause → Bool
  | .field name predicate => predicate.holds σ name
  | .and members => Clause.allMembersHold σ members
  | .or members => Clause.someMemberHolds σ members

def Clause.allHold (σ : Truth) : List Clause → Bool
  | [] => true
  | c :: clauses => c.holds σ && Clause.allHold σ clauses

def Clause.allMembersHold (σ : Truth) : List (List Clause) → Bool
  | [] => true
  | clauses :: members => Clause.allHold σ clauses && Clause.allMembersHold σ members

def Clause.someMemberHolds (σ : Truth) : List (List Clause) → Bool
  | [] => false
  | clauses :: members => Clause.allHold σ clauses || Clause.someMemberHolds σ members

end

def Filter.holds (σ : Truth) (f : Filter) : Bool :=
  Clause.allHold σ f

namespace Filter

variable {σ : Truth}

@[simp] theorem holds_nil : holds σ [] = true := rfl

@[simp] theorem holds_cons (c : Clause) (f : Filter) :
    holds σ (c :: f) = (c.holds σ && holds σ f) := rfl

@[simp] theorem holds_append (f g : Filter) : holds σ (f ++ g) = (f.holds σ && g.holds σ) := by
  induction f with
  | nil => simp
  | cons c f ih => simp [ih, Bool.and_assoc]

@[simp] theorem holds_field (name : String) (predicate : Predicate) :
    (Clause.field name predicate).holds σ = predicate.holds σ name := by
  simp [Clause.holds]

@[simp] theorem holds_andClause (members : List Filter) :
    (Clause.and members).holds σ = members.all (holds σ) := by
  simp only [Clause.holds]
  induction members with
  | nil => rfl
  | cons f members ih => simp only [Clause.allMembersHold, List.all_cons, ih]; rfl

@[simp] theorem holds_orClause (members : List Filter) :
    (Clause.or members).holds σ = members.any (holds σ) := by
  simp only [Clause.holds]
  induction members with
  | nil => rfl
  | cons f members ih => simp only [Clause.someMemberHolds, List.any_cons, ih]; rfl

theorem all_conjuncts (f : Filter) : f.conjuncts.all (holds σ) = f.holds σ := by
  unfold conjuncts
  split <;> simp

theorem any_disjuncts (f : Filter) : f.disjuncts.any (holds σ) = f.holds σ := by
  unfold disjuncts
  split <;> simp

/-- No field is called like the connective `$and`. -/
def HasNoAndField (f : Filter) : Prop :=
  ∀ predicate, Clause.field "$and" predicate ∉ f

theorem HasNoAndField.tail {c : Clause} {f : Filter} (h : HasNoAndField (c :: f)) :
    HasNoAndField f :=
  fun predicate hp => h predicate (List.mem_cons_of_mem c hp)

theorem holds_extendAnd {f : Filter} (hf : f.HasNoAndField) (hkey : f.hasKey "$and" = true)
    (more : List Filter) :
    (f.extendAnd more).holds σ = (f.holds σ && more.all (holds σ)) := by
  induction f with
  | nil => simp [hasKey] at hkey
  | cons c f ih =>
    cases c with
    | field name predicate =>
      have hname : name ≠ "$and" := by
        rintro rfl
        exact hf predicate List.mem_cons_self
      have hkey' : hasKey "$and" f = true := by
        simpa [hasKey, Clause.key, hname] using hkey
      simp [extendAnd, Clause.key, hname, ih hf.tail hkey', Bool.and_assoc]
    | and members =>
      simp only [extendAnd, holds_cons, holds_andClause, List.all_append]
      ac_rfl
    | or members =>
      have hkey' : hasKey "$and" f = true := by
        simpa [hasKey, Clause.key] using hkey
      simp [extendAnd, Clause.key, ih hf.tail hkey', Bool.and_assoc]

theorem holds_addOperators {f : Filter} {key name : String} {ops : List (QueryOp × Value)}
    (hfind : f.find? (·.key == key) = some (.field name (.operators ops)))
    (more : List (QueryOp × Value)) :
    (f.addOperators key more).holds σ =
      (f.holds σ && (Predicate.operators more).holds σ name) := by
  induction f with
  | nil => simp at hfind
  | cons c f ih =>
    by_cases hc : c.key = key
    · have he : c = .field name (.operators ops) := by simpa [hc] using hfind
      subst he
      simp only [addOperators, if_pos hc, holds_cons, holds_field, Predicate.holds, List.all_append]
      ac_rfl
    · have hfind' : f.find? (·.key == key) = some (.field name (.operators ops)) := by
        simpa [hc] using hfind
      simp [addOperators, hc, ih hfind', Bool.and_assoc]

theorem holds_merge? {f g m : Filter} (h : f.merge? g = some m) :
    m.holds σ = (f.holds σ && g.holds σ) := by
  obtain ⟨name, ops, more, hf, hg, _, ⟨rfl, rfl⟩ | ⟨rfl, rfl⟩⟩ := merge?_eq_some h
  · rw [holds_addOperators hf]
    simp
  · rw [holds_addOperators hg]
    simp [Bool.and_comm]

theorem holds_and {f : Filter} (hf : f.HasNoAndField) (g : Filter) :
    (f.and g).holds σ = (f.holds σ && g.holds σ) := by
  obtain ⟨rfl, h⟩ | ⟨hkey, h⟩ | ⟨_, h⟩ | h | ⟨_, _, h⟩ := and_cases f g
  · simp
  · rw [h, holds_extendAnd hf hkey, all_conjuncts]
  · rw [h, holds_append]
  · exact holds_merge? h
  · rw [h]
    simp

theorem holds_or {f g : Filter} (hf : f ≠ []) (hg : g ≠ []) :
    (f.or g).holds σ = (f.holds σ || g.holds σ) := by
  rw [or_of_ne_nil hf hg]
  simp [any_disjuncts]

/-- Combining filters combines their meanings. Only the left side of a conjunction must not name a
field `$and`: such a field would be taken for the list that absorbs the right side. -/
theorem meaning_of_connectives (f g : Filter) (hf : f.HasNoAndField) :
    (∀ σ, (f.and g).holds σ = (f.holds σ && g.holds σ)) ∧
      (f ≠ [] → g ≠ [] → ∀ σ, (f.or g).holds σ = (f.holds σ || g.holds σ)) ∧
      f.or [] = f ∧ Filter.or [] g = g :=
  ⟨fun _ => holds_and hf g, fun hf' hg' _ => holds_or hf' hg', or_nil f, nil_or g⟩

/-- The two bounds of a range meet in one clause beside another field. -/
theorem meaning_of_connectives_range :
    let f : Filter := [.field "b" (.equals (.int 3)), .field "a" (.operator .gt (.int 1))]
    let g : Filter := .ofField "a" (.operator .lt (.int 5))
    f.HasNoAndField ∧ (f.and g).length = 2 ∧
      ∀ σ, (f.and g).holds σ = (f.holds σ && g.holds σ) := by
  intro f g
  have hf : f.HasNoAndField := by
    intro predicate hp
    simp [f] at hp
  exact ⟨hf, by decide, (meaning_of_connectives f g hf).1⟩

end Filter

end DocQuery
