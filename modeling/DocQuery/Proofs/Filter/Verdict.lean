import DocQuery.Proofs.Filter.Meaning

/-! What a filter says when it is read by its keys. A field called like a connective cannot be told
from it, so that a filter with one cannot be read; an empty filter says nothing. -/

namespace DocQuery

mutual

/-- No field is called like a connective, at any depth. -/
def Clause.isReadable : Clause → Bool
  | .field name _ => name != "$and" && name != "$or"
  | .and members => Clause.areReadable members
  | .or members => Clause.areReadable members

def Clause.allReadable : List Clause → Bool
  | [] => true
  | c :: clauses => c.isReadable && Clause.allReadable clauses

def Clause.areReadable : List (List Clause) → Bool
  | [] => true
  | clauses :: members => Clause.allReadable clauses && Clause.areReadable members

end

def Filter.isReadable (f : Filter) : Bool :=
  Clause.allReadable f

inductive Verdict where
  | unreadable
  | silent
  | decided (truth : Bool)
deriving DecidableEq

/-- What is silent does not count, and what cannot be read spoils the rest. -/
def Verdict.combine (connective : Bool → Bool → Bool) : Verdict → Verdict → Verdict
  | unreadable, _ => unreadable
  | _, unreadable => unreadable
  | silent, v => v
  | v, silent => v
  | decided a, decided b => decided (connective a b)

@[simp] theorem Verdict.unreadable_combine (connective : Bool → Bool → Bool) (v : Verdict) :
    unreadable.combine connective v = unreadable := by
  cases v <;> rfl

@[simp] theorem Verdict.combine_unreadable (connective : Bool → Bool → Bool) (v : Verdict) :
    v.combine connective unreadable = unreadable := by
  cases v <;> rfl

@[simp] theorem Verdict.silent_combine (connective : Bool → Bool → Bool) (v : Verdict) :
    silent.combine connective v = v := by
  cases v <;> rfl

@[simp] theorem Verdict.combine_silent (connective : Bool → Bool → Bool) (v : Verdict) :
    v.combine connective silent = v := by
  cases v <;> rfl

@[simp] theorem Verdict.decided_combine_decided (connective : Bool → Bool → Bool) (a b : Bool) :
    (decided a).combine connective (decided b) = decided (connective a b) := rfl

def Filter.verdict (σ : Truth) (f : Filter) : Verdict :=
  if !f.isReadable then .unreadable else if f.isEmpty then .silent else .decided (f.holds σ)

namespace Filter

variable {σ : Truth}

@[simp] theorem isReadable_nil : isReadable [] = true := rfl

@[simp] theorem isReadable_cons (c : Clause) (f : Filter) :
    isReadable (c :: f) = (c.isReadable && isReadable f) := rfl

@[simp] theorem isReadable_append (f g : Filter) :
    isReadable (f ++ g) = (f.isReadable && g.isReadable) := by
  induction f with
  | nil => simp
  | cons c f ih => simp [ih, Bool.and_assoc]

theorem areReadable_eq_all (members : List Filter) :
    Clause.areReadable members = members.all isReadable := by
  induction members with
  | nil => rfl
  | cons f members ih => simp only [Clause.areReadable, List.all_cons, ih]; rfl

@[simp] theorem isReadable_andClause (members : List Filter) :
    (Clause.and members).isReadable = members.all isReadable := by
  rw [Clause.isReadable, areReadable_eq_all]

@[simp] theorem isReadable_orClause (members : List Filter) :
    (Clause.or members).isReadable = members.all isReadable := by
  rw [Clause.isReadable, areReadable_eq_all]

theorem all_isReadable_conjuncts (f : Filter) : f.conjuncts.all isReadable = f.isReadable := by
  unfold conjuncts
  split <;> simp

theorem all_isReadable_disjuncts (f : Filter) : f.disjuncts.all isReadable = f.isReadable := by
  unfold disjuncts
  split <;> simp

theorem isReadable_of_mem {f : Filter} {c : Clause} (h : f.isReadable = true) (hc : c ∈ f) :
    c.isReadable = true := by
  induction f with
  | nil => cases hc
  | cons d f ih =>
    rw [isReadable_cons, Bool.and_eq_true] at h
    rcases List.mem_cons.mp hc with rfl | hc
    · exact h.1
    · exact ih h.2 hc

theorem hasNoAndField_of_isReadable {f : Filter} (h : f.isReadable = true) : f.HasNoAndField := by
  intro predicate hp
  simpa [Clause.isReadable] using isReadable_of_mem h hp

theorem isReadable_extendAnd {f : Filter} (hkey : f.hasKey "$and" = true) (more : List Filter) :
    (f.extendAnd more).isReadable = (f.isReadable && more.all isReadable) := by
  fun_induction extendAnd more f with
  | case1 => simp [hasKey] at hkey
  | case2 members clauses =>
    simp only [isReadable_cons, isReadable_andClause, List.all_append]
    ac_rfl
  | case3 c clauses hand hc =>
    cases c with
    | field name predicate =>
      have hname : name = "$and" := hc
      simp [Clause.isReadable, hname]
    | and members => exact absurd rfl (hand members)
    | or members => exact absurd hc (by simp [Clause.key])
  | case4 c clauses _ hc ih =>
    have hkey' : hasKey "$and" clauses = true := by simpa [hasKey, hc] using hkey
    simp [ih hkey', Bool.and_assoc]

theorem isReadable_addOperators {f : Filter} {key name : String} {ops : List (QueryOp × Value)}
    (hfind : f.find? (·.key == key) = some (.field name (.operators ops)))
    (more : List (QueryOp × Value)) : (f.addOperators key more).isReadable = f.isReadable := by
  induction f with
  | nil => simp at hfind
  | cons c f ih =>
    by_cases hc : c.key = key
    · have he : c = .field name (.operators ops) := by simpa [hc] using hfind
      subst he
      simp [addOperators, hc, Clause.isReadable]
    · have hfind' : f.find? (·.key == key) = some (.field name (.operators ops)) := by
        simpa [hc] using hfind
      simp [addOperators, hc, ih hfind']

theorem isReadable_merge? {f g m : Filter} (h : f.merge? g = some m) :
    m.isReadable = (f.isReadable && g.isReadable) := by
  obtain ⟨name, ops, more, hf, hg, _, ⟨rfl, rfl⟩ | ⟨rfl, rfl⟩⟩ := merge?_eq_some h
  · have hread := fun h => isReadable_of_mem (f := f) h (List.mem_of_find?_eq_some hf)
    rw [isReadable_addOperators hf]
    simpa [Clause.isReadable] using hread
  · have hread := fun h => isReadable_of_mem (f := g) h (List.mem_of_find?_eq_some hg)
    rw [isReadable_addOperators hg]
    simpa [Clause.isReadable] using hread

theorem isReadable_and (f g : Filter) :
    (f.and g).isReadable = (f.isReadable && g.isReadable) := by
  obtain ⟨rfl, h⟩ | ⟨hkey, h⟩ | ⟨_, h⟩ | h | ⟨_, _, h⟩ := and_cases f g
  · simp
  · rw [h, isReadable_extendAnd hkey, all_isReadable_conjuncts]
  · rw [h, isReadable_append]
  · exact isReadable_merge? h
  · rw [h]
    simp

theorem isReadable_or (f g : Filter) :
    (f.or g).isReadable = (f.isReadable && g.isReadable) := by
  by_cases hf : f = []
  · simp [hf]
  by_cases hg : g = []
  · simp [hg]
  rw [or_of_ne_nil hf hg]
  simp only [isReadable_cons, isReadable_orClause, List.all_append, all_isReadable_disjuncts,
    isReadable_nil, Bool.and_true]

@[simp] theorem verdict_nil : verdict σ [] = .silent := rfl

theorem verdict_of_not_isReadable {f : Filter} (h : f.isReadable = false) :
    f.verdict σ = .unreadable := by
  simp [verdict, h]

theorem verdict_of_isReadable {f : Filter} (h : f.isReadable = true) (hnil : f ≠ []) :
    f.verdict σ = .decided (f.holds σ) := by
  have hempty : f.isEmpty = false := by simpa using hnil
  simp [verdict, h, hempty]

theorem holds_of_verdict_eq_decided {f : Filter} {b : Bool} (h : f.verdict σ = .decided b) :
    f.holds σ = b := by
  unfold verdict at h
  split at h
  · cases h
  split at h
  · cases h
  · injection h

/-- To combine verdicts, it is enough to combine the truth of filters that can be read. -/
theorem verdict_combine {f g m : Filter} {connective : Bool → Bool → Bool}
    (hread : m.isReadable = (f.isReadable && g.isReadable)) (hnil : f = [] → m = g)
    (hne : f ≠ [] → m ≠ []) (hnil' : g = [] → f.isReadable = true → m.holds σ = f.holds σ)
    (hholds : f ≠ [] → g ≠ [] → f.isReadable = true →
      m.holds σ = connective (f.holds σ) (g.holds σ)) :
    m.verdict σ = (f.verdict σ).combine connective (g.verdict σ) := by
  by_cases hf : f = []
  · rw [hnil hf, hf, verdict_nil, Verdict.silent_combine]
  cases hfr : f.isReadable with
  | false =>
    rw [verdict_of_not_isReadable hfr, Verdict.unreadable_combine]
    exact verdict_of_not_isReadable (by rw [hread, hfr, Bool.false_and])
  | true =>
    rw [hfr, Bool.true_and] at hread
    cases hgr : g.isReadable with
    | false =>
      rw [verdict_of_not_isReadable hgr, Verdict.combine_unreadable]
      exact verdict_of_not_isReadable (by rw [hread, hgr])
    | true =>
      rw [verdict_of_isReadable (by rw [hread, hgr]) (hne hf), verdict_of_isReadable hfr hf]
      by_cases hg : g = []
      · rw [hg, verdict_nil, Verdict.combine_silent, hnil' hg hfr]
      · rw [verdict_of_isReadable hgr hg, Verdict.decided_combine_decided, hholds hf hg hfr]

theorem verdict_and (f g : Filter) :
    (f.and g).verdict σ = (f.verdict σ).combine (· && ·) (g.verdict σ) := by
  have hholds := fun (h : f.isReadable = true) =>
    holds_and (σ := σ) (hasNoAndField_of_isReadable h) g
  refine verdict_combine (isReadable_and f g) (fun h => by rw [h, nil_and]) and_ne_nil ?_
    fun _ _ => hholds
  intro hg hf
  rw [hholds hf, hg, holds_nil, Bool.and_true]

theorem verdict_or (f g : Filter) :
    (f.or g).verdict σ = (f.verdict σ).combine (· || ·) (g.verdict σ) := by
  refine verdict_combine (isReadable_or f g) (fun h => by rw [h, nil_or]) or_ne_nil ?_
    fun hf hg _ => holds_or hf hg
  intro hg _
  rw [hg, or_nil]

end Filter

end DocQuery
