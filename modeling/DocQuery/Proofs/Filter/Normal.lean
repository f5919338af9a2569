import DocQuery.Proofs.Filter.Cases
import Mathlib.Data.List.Nodup

/-! The shape of the filters that can be built: at every level of nesting each key occurs once, and
no connective has a member that could be spliced into it. Such a filter loses nothing when it is
rendered as a document. -/

namespace DocQuery

/-- Operators on a field, if any, are there and pairwise different. -/
def Predicate.Proper : Predicate → Prop
  | equals _ => True
  | pattern _ => True
  | operators ops => ops ≠ [] ∧ (ops.map (·.1)).Nodup

def Filter.isOnlyAnd : Filter → Bool
  | [.and _] => true
  | _ => false

namespace Clause

def members : Clause → List Filter
  | field _ _ => []
  | and members => members
  | or members => members

/-- What a clause satisfies apart from its members: a field satisfies `P`, a connective has at least
two members and none that could be spliced into it. -/
def Flat (P : String → Predicate → Prop) : Clause → Prop
  | field name predicate => P name predicate
  | and members => 2 ≤ members.length ∧ ∀ m ∈ members, Filter.isOnlyAnd m = false
  | or members => 2 ≤ members.length ∧ ∀ m ∈ members, m ≠ [] ∧ Filter.isOnlyOr m = false

end Clause

namespace Filter

/-- Each key occurs once and each clause is flat, in the filter and in all filters inside it. -/
inductive Normal (P : String → Predicate → Prop) : Filter → Prop
  | mk {f : Filter} (keys : (f.map Clause.key).Nodup) (flat : ∀ c ∈ f, c.Flat P)
      (members : ∀ c ∈ f, ∀ m ∈ c.members, Normal P m) : Normal P f

/-- The filters that the operations build from fields that satisfy `P`. -/
inductive Built (P : String → Predicate → Prop) : Filter → Prop
  | empty : Built P []
  | field {name : String} {predicate : Predicate} (h : P name predicate) :
      Built P (.ofField name predicate)
  | and {f g : Filter} (hf : Built P f) (hg : Built P g) : Built P (f.and g)
  | or {f g : Filter} (hf : Built P f) (hg : Built P g) : Built P (f.or g)

/-- Operators that are collected in one clause satisfy what they satisfied apart. -/
def ClosedUnderMerge (P : String → Predicate → Prop) : Prop :=
  ∀ name ops more, P name (.operators ops) → P name (.operators more) →
    disjointOperators ops more = true → P name (.operators (ops ++ more))

theorem disjointOperators_iff {ops more : List (QueryOp × Value)} :
    disjointOperators ops more = true ↔ ∀ o ∈ ops, ∀ p ∈ more, o.1 ≠ p.1 := by
  simp only [disjointOperators, List.all_eq_true, bne_iff_ne]

theorem disjointOperators_symm {ops more : List (QueryOp × Value)}
    (h : disjointOperators ops more = true) : disjointOperators more ops = true := by
  rw [disjointOperators_iff] at h ⊢
  exact fun p hp o ho he => h o ho p hp he.symm

theorem closedUnderMerge_proper : ClosedUnderMerge fun _ => Predicate.Proper := by
  rintro _ ops more ⟨hne, hops⟩ ⟨_, hmore⟩ hdisj
  rw [disjointOperators_iff] at hdisj
  refine ⟨by simp [hne], ?_⟩
  rw [List.map_append, List.nodup_append]
  refine ⟨hops, hmore, ?_⟩
  intro a ha b hb
  obtain ⟨o, ho, rfl⟩ := List.mem_map.mp ha
  obtain ⟨p, hp, rfl⟩ := List.mem_map.mp hb
  exact hdisj o ho p hp

namespace Normal

variable {P : String → Predicate → Prop} {f g : Filter}

theorem nodup_keys (h : f.Normal P) : (f.map Clause.key).Nodup := by
  cases h
  assumption

theorem flat_of_mem (h : f.Normal P) {c : Clause} (hc : c ∈ f) : c.Flat P := by
  cases h with
  | mk _ flat _ => exact flat c hc

theorem member (h : f.Normal P) {c : Clause} (hc : c ∈ f) {m : Filter} (hm : m ∈ c.members) :
    m.Normal P := by
  cases h with
  | mk _ _ members => exact members c hc m hm

theorem empty : Normal P [] :=
  .mk List.nodup_nil (by simp) (by simp)

theorem singleton {c : Clause} (hflat : c.Flat P) (hmembers : ∀ m ∈ c.members, m.Normal P) :
    Normal P [c] := by
  refine .mk (List.nodup_singleton _) ?_ ?_
  · intro d hd
    rwa [List.mem_singleton.mp hd]
  · intro d hd m hm
    rw [List.mem_singleton.mp hd] at hm
    exact hmembers m hm

theorem field {name : String} {predicate : Predicate} (h : P name predicate) :
    (ofField name predicate).Normal P :=
  singleton h (by simp [Clause.members])

theorem conjuncts (h : f.Normal P) :
    ∀ m ∈ f.conjuncts, m.Normal P ∧ isOnlyAnd m = false := by
  intro m hm
  unfold Filter.conjuncts at hm
  split at hm
  · rename_i members
    have hc := List.mem_singleton_self (Clause.and members)
    exact ⟨h.member hc hm, (h.flat_of_mem hc).2 m hm⟩
  · rename_i hnot
    rw [List.mem_singleton.mp hm]
    refine ⟨h, ?_⟩
    unfold isOnlyAnd
    split
    · rename_i members
      exact absurd rfl (hnot members)
    · rfl

theorem disjuncts (h : f.Normal P) (hf : f ≠ []) :
    ∀ m ∈ f.disjuncts, m.Normal P ∧ m ≠ [] ∧ isOnlyOr m = false := by
  intro m hm
  unfold Filter.disjuncts at hm
  split at hm
  · rename_i members
    have hc := List.mem_singleton_self (Clause.or members)
    exact ⟨h.member hc hm, (h.flat_of_mem hc).2 m hm⟩
  · rename_i hnot
    rw [List.mem_singleton.mp hm]
    refine ⟨h, hf, ?_⟩
    unfold isOnlyOr
    split
    · rename_i members
      exact absurd rfl (hnot members)
    · rfl

theorem append (hf : f.Normal P) (hg : g.Normal P)
    (hdisj : ∀ c ∈ f, g.hasKey c.key = false) : Normal P (f ++ g) := by
  refine .mk ?_ ?_ ?_
  · rw [List.map_append, List.nodup_append]
    refine ⟨hf.nodup_keys, hg.nodup_keys, ?_⟩
    intro a ha b hb hab
    obtain ⟨c, hc, rfl⟩ := List.mem_map.mp ha
    obtain ⟨d, hd, rfl⟩ := List.mem_map.mp hb
    have hk := hdisj c hc
    simp only [hasKey, List.any_eq_false, beq_iff_eq] at hk
    exact hk d hd hab.symm
  · intro c hc
    exact (List.mem_append.mp hc).elim hf.flat_of_mem hg.flat_of_mem
  · intro c hc m hm
    exact (List.mem_append.mp hc).elim (fun h => hf.member h hm) (fun h => hg.member h hm)

theorem extendAnd (hf : f.Normal P) {more : List Filter}
    (hmore : ∀ m ∈ more, m.Normal P ∧ isOnlyAnd m = false) : (f.extendAnd more).Normal P := by
  refine .mk ?_ ?_ ?_
  · rw [key_extendAnd]
    exact hf.nodup_keys
  · intro c hc
    rcases mem_extendAnd hc with hc | ⟨members, hm, rfl⟩
    · exact hf.flat_of_mem hc
    · have hflat := hf.flat_of_mem hm
      refine ⟨by have := hflat.1; simp only [List.length_append]; omega, ?_⟩
      intro m hm
      exact (List.mem_append.mp hm).elim (hflat.2 m) (fun h => (hmore m h).2)
  · intro c hc m hm
    rcases mem_extendAnd hc with hc | ⟨members, hmem, rfl⟩
    · exact hf.member hc hm
    · exact (List.mem_append.mp hm).elim (hf.member hmem) (fun h => (hmore m h).1)

theorem addOperators (hf : f.Normal P) {key name : String} {ops more : List (QueryOp × Value)}
    (hfind : f.find? (·.key == key) = some (.field name (.operators ops)))
    (hP : P name (.operators (ops ++ more))) : (f.addOperators key more).Normal P := by
  refine .mk ?_ ?_ ?_
  · rw [key_addOperators]
    exact hf.nodup_keys
  · intro c hc
    rcases mem_addOperators hfind hc with hc | rfl
    · exact hf.flat_of_mem hc
    · exact hP
  · intro c hc m hm
    rcases mem_addOperators hfind hc with hc | rfl
    · exact hf.member hc hm
    · simp [Clause.members] at hm

theorem of_find? (hf : f.Normal P) {key name : String} {predicate : Predicate}
    (hfind : f.find? (·.key == key) = some (.field name predicate)) : P name predicate :=
  hf.flat_of_mem (List.mem_of_find?_eq_some hfind)

theorem merge? (hP : ClosedUnderMerge P) (hf : f.Normal P) (hg : g.Normal P) {m : Filter}
    (h : f.merge? g = some m) : m.Normal P := by
  obtain ⟨name, ops, more, hfind, hfind', hdisj, ⟨_, rfl⟩ | ⟨_, rfl⟩⟩ := merge?_eq_some h
  · exact hf.addOperators hfind (hP _ _ _ (hf.of_find? hfind) (hg.of_find? hfind') hdisj)
  · exact hg.addOperators hfind'
      (hP _ _ _ (hg.of_find? hfind') (hf.of_find? hfind) (disjointOperators_symm hdisj))

theorem isOnlyAnd_eq_false (hkey : f.hasKey "$and" = false)
    (hshare : ∃ c ∈ f, g.hasKey c.key = true) : isOnlyAnd f = false ∧ isOnlyAnd g = false := by
  have hnone : ∀ c ∈ f, c.key ≠ "$and" := by simpa [hasKey] using hkey
  constructor
  · unfold isOnlyAnd
    split
    · exact absurd rfl (hnone _ List.mem_cons_self)
    · rfl
  · unfold isOnlyAnd
    split
    · obtain ⟨c, hc, hk⟩ := hshare
      have hk' : "$and" = c.key := by simpa [hasKey, Clause.key] using hk
      exact absurd hk'.symm (hnone c hc)
    · rfl

theorem and (hP : ClosedUnderMerge P) (hf : f.Normal P) (hg : g.Normal P) :
    (f.and g).Normal P := by
  obtain ⟨_, h⟩ | ⟨_, h⟩ | ⟨hdisj, h⟩ | h | ⟨hkey, hshare, h⟩ := and_cases f g
  · rwa [h]
  · rw [h]
    exact hf.extendAnd hg.conjuncts
  · rw [h]
    exact hf.append hg hdisj
  · exact merge? hP hf hg h
  · have hlone := isOnlyAnd_eq_false hkey hshare
    rw [h]
    refine singleton ⟨Nat.le_refl 2, ?_⟩ ?_
    · simpa using hlone
    · simpa [Clause.members] using ⟨hf, hg⟩

theorem length_disjuncts_pos (hf : f.Normal P) : 0 < f.disjuncts.length := by
  unfold Filter.disjuncts
  split
  · rename_i members
    have htwo := (hf.flat_of_mem (List.mem_singleton_self (Clause.or members))).1
    omega
  · simp

theorem or (hf : f.Normal P) (hg : g.Normal P) : (f.or g).Normal P := by
  by_cases hf' : f = []
  · rwa [hf', nil_or]
  by_cases hg' : g = []
  · rwa [hg', or_nil]
  rw [or_of_ne_nil hf' hg']
  have hmem : ∀ m ∈ f.disjuncts ++ g.disjuncts, m.Normal P ∧ m ≠ [] ∧ isOnlyOr m = false := by
    intro m hm
    exact (List.mem_append.mp hm).elim (hf.disjuncts hf' m) (hg.disjuncts hg' m)
  refine singleton ⟨?_, fun m hm => (hmem m hm).2⟩ (fun m hm => (hmem m hm).1)
  have := hf.length_disjuncts_pos
  have := hg.length_disjuncts_pos
  simp only [List.length_append]
  omega

end Normal

theorem Built.normal {P : String → Predicate → Prop} (hP : ClosedUnderMerge P) {f : Filter}
    (h : f.Built P) : f.Normal P := by
  induction h with
  | empty => exact .empty
  | field h => exact .field h
  | and _ _ hf hg => exact hf.and hP hg
  | or _ _ hf hg => exact hf.or hg

end Filter

end DocQuery
