import DocQuery.Filter.Basic

/-! What the conjunction of two filters can be: one case for each of the forms that keep it flat. -/

namespace DocQuery.Filter

theorem find?_of_filter_hasKey {f g : Filter} {c : Clause}
    (h : f.filter (fun d => g.hasKey d.key) = [c]) : f.find? (·.key == c.key) = some c := by
  have hc : c ∈ f.filter (fun d => g.hasKey d.key) := by simp [h]
  have hkey : g.hasKey c.key = true := by simpa using (List.mem_filter.mp hc).2
  clear hc
  induction f with
  | nil => simp at h
  | cons d f ih =>
    by_cases hd : d.key = c.key
    · rw [List.filter_cons_of_pos (by simpa [hd] using hkey)] at h
      simp [(List.cons.inj h).1]
    · have hd' : ¬ g.hasKey d.key = true := by
        intro hk
        rw [List.filter_cons_of_pos (by simpa using hk)] at h
        exact hd (congrArg Clause.key (List.cons.inj h).1)
      rw [List.filter_cons_of_neg (by simpa using hd')] at h
      simpa [hd] using ih h

theorem eq_singleton_of_find? {f : Filter} {c : Clause} {key : String}
    (hlen : f.length = 1) (hfind : f.find? (·.key == key) = some c) : f = [c] := by
  obtain ⟨d, rfl⟩ := List.length_eq_one_iff.mp hlen
  have hd := List.mem_of_find?_eq_some hfind
  rw [List.mem_singleton.mp hd]

/-- A merged filter comes from two different sets of operators on one field, and one side
constrains nothing else. -/
theorem merge?_eq_some {f g m : Filter} (h : f.merge? g = some m) :
    ∃ name ops more, f.find? (·.key == name) = some (.field name (.operators ops)) ∧
      g.find? (·.key == name) = some (.field name (.operators more)) ∧
      disjointOperators ops more = true ∧
      ((g = [.field name (.operators more)] ∧ m = f.addOperators name more) ∨
        (f = [.field name (.operators ops)] ∧ m = g.addOperators name ops)) := by
  unfold merge? at h
  split at h
  · rename_i name ops hshared
    have hf : f.find? (·.key == name) = some (.field name (.operators ops)) :=
      find?_of_filter_hasKey hshared
    split at h
    · rename_i name' more hg
      have hname : name' = name := by simpa [Clause.key] using List.find?_some hg
      subst hname
      split at h
      · cases h
      · rename_i hdisj
        refine ⟨name', ops, more, hf, hg, by simpa using hdisj, ?_⟩
        split at h
        · rename_i hlen
          cases h
          exact .inl ⟨eq_singleton_of_find? hlen hg, rfl⟩
        split at h
        · rename_i hlen
          cases h
          exact .inr ⟨eq_singleton_of_find? hlen hf, rfl⟩
        · cases h
    · cases h
  · cases h

/-! ### Clauses that operations change in place -/

theorem key_extendAnd (more : List Filter) (f : Filter) :
    (f.extendAnd more).map Clause.key = f.map Clause.key := by
  fun_induction extendAnd more f <;> simp_all [Clause.key]

theorem mem_extendAnd {more : List Filter} {f : Filter} {c : Clause}
    (h : c ∈ f.extendAnd more) :
    c ∈ f ∨ ∃ members, Clause.and members ∈ f ∧ c = .and (members ++ more) := by
  fun_induction extendAnd more f with
  | case1 => exact .inl h
  | case2 members clauses =>
    rcases List.mem_cons.mp h with rfl | h
    · exact .inr ⟨members, List.mem_cons_self, rfl⟩
    · exact .inl (List.mem_cons_of_mem _ h)
  | case3 => exact .inl h
  | case4 d clauses _ _ ih =>
    rcases List.mem_cons.mp h with rfl | h
    · exact .inl List.mem_cons_self
    · rcases ih h with h | ⟨members, hm, he⟩
      · exact .inl (List.mem_cons_of_mem d h)
      · exact .inr ⟨members, List.mem_cons_of_mem d hm, he⟩

theorem key_addOperators (key : String) (more : List (QueryOp × Value)) (f : Filter) :
    (f.addOperators key more).map Clause.key = f.map Clause.key := by
  fun_induction addOperators key more f <;> simp_all [Clause.key]

theorem mem_addOperators {key name : String} {ops more : List (QueryOp × Value)} {f : Filter}
    {c : Clause} (hfind : f.find? (·.key == key) = some (.field name (.operators ops)))
    (h : c ∈ f.addOperators key more) : c ∈ f ∨ c = .field name (.operators (ops ++ more)) := by
  induction f with
  | nil => simp at hfind
  | cons d f ih =>
    by_cases hd : d.key = key
    · have he : d = .field name (.operators ops) := by simpa [hd] using hfind
      subst he
      simp only [addOperators, if_pos hd] at h
      rcases List.mem_cons.mp h with h | h
      · exact .inr h
      · exact .inl (List.mem_cons_of_mem _ h)
    · have hfind' : f.find? (·.key == key) = some (.field name (.operators ops)) := by
        simpa [hd] using hfind
      simp only [addOperators, if_neg hd] at h
      rcases List.mem_cons.mp h with rfl | h
      · exact .inl List.mem_cons_self
      · exact (ih hfind' h).imp_left (List.mem_cons_of_mem d)

/-! ### Conjunction and disjunction -/

@[simp] theorem nil_and (g : Filter) : Filter.and [] g = g := rfl

@[simp] theorem nil_or (g : Filter) : Filter.or [] g = g := rfl

@[simp] theorem or_nil (f : Filter) : f.or [] = f := by
  cases f <;> rfl

/-- The forms of a conjunction: the other side of an empty filter, an extended `$and`, the union of
two filters with different keys, a merged filter, or a new `$and`. -/
theorem and_cases (f g : Filter) :
    (f = [] ∧ f.and g = g) ∨
      (f.hasKey "$and" = true ∧ f.and g = f.extendAnd g.conjuncts) ∨
      ((∀ c ∈ f, g.hasKey c.key = false) ∧ f.and g = f ++ g) ∨
      (f.merge? g = some (f.and g)) ∨
      (f.hasKey "$and" = false ∧ (∃ c ∈ f, g.hasKey c.key = true) ∧ f.and g = [.and [f, g]]) := by
  by_cases hnil : f = []
  · exact .inl ⟨hnil, by rw [hnil, nil_and]⟩
  have hempty : f.isEmpty = false := by simpa using hnil
  by_cases hkey : f.hasKey "$and" = true
  · exact .inr (.inl ⟨hkey, by simp [Filter.and, hempty, hkey]⟩)
  have hkey' : f.hasKey "$and" = false := by simpa using hkey
  by_cases hshare : ∃ c ∈ f, g.hasKey c.key = true
  · have hany : f.any (fun c => g.hasKey c.key) = true := List.any_eq_true.mpr hshare
    cases hm : f.merge? g with
    | none =>
      exact .inr (.inr (.inr (.inr
        ⟨hkey', hshare, by simp [Filter.and, hempty, hkey', hany, hm]⟩)))
    | some m =>
      exact .inr (.inr (.inr (.inl (by simp [Filter.and, hempty, hkey', hany, hm]))))
  · have hnone : ∀ c ∈ f, g.hasKey c.key = false := by simpa using hshare
    have hany : f.any (fun c => g.hasKey c.key) = false := by simpa using hnone
    exact .inr (.inr (.inl ⟨hnone, by simp [Filter.and, hempty, hkey', hany]⟩))

theorem and_ne_nil {f g : Filter} (h : f ≠ []) : f.and g ≠ [] := by
  have hkeys : f.map Clause.key ≠ [] := by simpa using h
  obtain ⟨hnil, _⟩ | ⟨_, h'⟩ | ⟨_, h'⟩ | h' | ⟨_, _, h'⟩ := and_cases f g
  · exact absurd hnil h
  · intro he
    rw [h'] at he
    exact hkeys (by rw [← key_extendAnd g.conjuncts f, he]; rfl)
  · simp [h', h]
  · intro he
    obtain ⟨name, ops, more, _, hg, _, ⟨_, hm⟩ | ⟨_, hm⟩⟩ := merge?_eq_some h'
    · exact hkeys (by rw [← key_addOperators name more f, ← hm, he]; rfl)
    · have hnil : g.map Clause.key = [] := by rw [← key_addOperators name ops g, ← hm, he]; rfl
      rw [List.map_eq_nil_iff.mp hnil] at hg
      cases hg
  · simp [h']

theorem or_of_ne_nil {f g : Filter} (hf : f ≠ []) (hg : g ≠ []) :
    f.or g = [.or (f.disjuncts ++ g.disjuncts)] := by
  have hf' : f.isEmpty = false := by simpa using hf
  have hg' : g.isEmpty = false := by simpa using hg
  simp [Filter.or, hf', hg']

theorem or_ne_nil {f g : Filter} (h : f ≠ []) : f.or g ≠ [] := by
  by_cases hg : g = []
  · rwa [hg, or_nil]
  · simp [or_of_ne_nil h hg]

end DocQuery.Filter
