import DocQuery.Proofs.Condition.Conjunction
import DocQuery.Proofs.Where.Leaf

/-! Comparisons of fields joined by `AND`. As long as a field occurs twice only with operators that
differ, the filter stays flat: each field has one clause, which collects its operators. -/

namespace DocQuery

def Predicate.Compatible (p q : Predicate) : Prop :=
  ∃ ops more, p = .operators ops ∧ q = .operators more ∧ ∀ o ∈ ops, ∀ m ∈ more, o.1 ≠ m.1

def Predicate.operatorList : Predicate → List (QueryOp × Value)
  | operators ops => ops
  | _ => []

namespace Filter

/-- What tests of fields ask of one field: a value or a pattern as it stands, or all operators in
order. -/
def gathered (tests : List (String × Predicate)) (name : String) : Predicate :=
  match tests.lookup name with
  | some (.equals value) => .equals value
  | some (.pattern text) => .pattern text
  | _ => .operators ((tests.filter (·.1 == name)).flatMap (·.2.operatorList))

/-- One clause for each field, in order of first occurrence. -/
def flattened (tests : List (String × Predicate)) : Filter :=
  (Statement.distinct (tests.map (·.1))).map fun name => .field name (gathered tests name)

theorem map_key_flattened (tests : List (String × Predicate)) :
    (flattened tests).map Clause.key = Statement.distinct (tests.map (·.1)) := by
  rw [flattened, List.map_map]
  exact List.map_id _

section Gathered

variable {tests : List (String × Predicate)} {name : String} {p : Predicate}

theorem gathered_concat_of_ne {other : String} (h : other ≠ name) :
    gathered (tests ++ [(name, p)]) other = gathered tests other := by
  have hlookup : (tests ++ [(name, p)]).lookup other = tests.lookup other := by
    rw [List.lookup_append, List.lookup_cons, beq_false_of_ne h]
    exact Option.or_none
  have hfilter : (tests ++ [(name, p)]).filter (·.1 == other) = tests.filter (·.1 == other) := by
    rw [List.filter_append, List.filter_cons_of_neg (by simpa using h.symm), List.filter_nil,
      List.append_nil]
  rw [gathered, hlookup, hfilter, gathered]

theorem gathered_concat_of_notMem (h : name ∉ tests.map (·.1)) :
    gathered (tests ++ [(name, p)]) name = p := by
  have hne : ∀ t ∈ tests, t.1 ≠ name := fun t ht heq => h (List.mem_map.mpr ⟨t, ht, heq⟩)
  have hnone : tests.lookup name = none :=
    List.lookup_eq_none_iff.mpr fun t ht => by simpa using (hne t ht).symm
  have hlookup : (tests ++ [(name, p)]).lookup name = some p := by
    rw [List.lookup_append, hnone, List.lookup_cons, beq_self_eq_true]
    rfl
  have hfilter : (tests ++ [(name, p)]).filter (·.1 == name) = [(name, p)] := by
    rw [List.filter_append, List.filter_eq_nil_iff.mpr (by simpa using hne)]
    simp
  rw [gathered, hlookup, hfilter]
  cases p <;> simp [Predicate.operatorList]

theorem exists_lookup (h : name ∈ tests.map (·.1)) :
    ∃ q front back, tests.lookup name = some q ∧ tests = front ++ (name, q) :: back ∧
      ∀ t ∈ front, t.1 ≠ name := by
  cases hlookup : tests.lookup name with
  | none =>
    obtain ⟨t, ht, hname⟩ := List.mem_map.mp h
    have hne := List.lookup_eq_none_iff.mp hlookup t ht
    simp [hname] at hne
  | some q =>
    obtain ⟨front, back, htests, hfront⟩ := List.lookup_eq_some_iff.mp hlookup
    refine ⟨q, front, back, rfl, htests, fun t ht heq => ?_⟩
    have hne := hfront t ht
    simp [heq] at hne

theorem gathered_concat_of_mem (h : name ∈ tests.map (·.1))
    (hp : ∀ t ∈ tests, t.1 = name → t.2.Compatible p) :
    ∃ ops more, p = .operators more ∧ gathered tests name = .operators ops ∧
      disjointOperators ops more = true ∧
      gathered (tests ++ [(name, p)]) name = .operators (ops ++ more) := by
  obtain ⟨q, front, back, hq, htests, -⟩ := exists_lookup h
  obtain ⟨first, more, hfirst, rfl, -⟩ := hp (name, q) (by simp [htests]) rfl
  obtain rfl : q = .operators first := hfirst
  refine ⟨(tests.filter (·.1 == name)).flatMap (·.2.operatorList), more, rfl, ?_, ?_, ?_⟩
  · rw [gathered, hq]
  · rw [disjointOperators_iff]
    intro o ho m hm
    obtain ⟨t, ht, hot⟩ := List.mem_flatMap.mp ho
    obtain ⟨ht, hname⟩ := List.mem_filter.mp ht
    obtain ⟨ops, more', hops, hmore, hdisjoint⟩ := hp t ht (by simpa using hname)
    cases hmore
    rw [hops] at hot
    exact hdisjoint o hot m hm
  · have hlookup : (tests ++ [(name, Predicate.operators more)]).lookup name =
        some (.operators first) := by
      rw [List.lookup_append, hq]
      rfl
    rw [gathered, hlookup, List.filter_append, List.flatMap_append]
    simp [Predicate.operatorList]

end Gathered

theorem hasKey_ofField (key name : String) (p : Predicate) :
    (ofField name p).hasKey key = (name == key) := by
  simp [hasKey, ofField, Clause.key]

theorem and_ofField_of_notMem {f : Filter} {name : String} (hand : f.hasKey "$and" = false)
    (h : ∀ c ∈ f, c.key ≠ name) (p : Predicate) :
    f.and (.ofField name p) = f ++ [Clause.field name p] := by
  by_cases hf : f = []
  · rw [hf]
    rfl
  · have hempty : f.isEmpty = false := by simpa using hf
    have hany : (f.any fun c => (ofField name p).hasKey c.key) = false := by
      rw [List.any_eq_false]
      intro c hc
      rw [hasKey_ofField]
      simpa using (h c hc).symm
    simp only [Filter.and, hempty, hand, hany]
    rfl

theorem addOperators_append {front back : Filter} {name : String}
    (hfront : ∀ c ∈ front, c.key ≠ name) (ops more : List (QueryOp × Value)) :
    addOperators name more (front ++ .field name (.operators ops) :: back) =
      front ++ .field name (.operators (ops ++ more)) :: back := by
  induction front with
  | nil => simp [addOperators, Clause.key]
  | cons c front ih =>
    have hc : c.key ≠ name := hfront c List.mem_cons_self
    have hrest := ih fun d hd => hfront d (List.mem_cons_of_mem c hd)
    simp only [List.cons_append, addOperators, if_neg hc, hrest]

theorem and_ofField_operators {front back : Filter} {name : String}
    {ops more : List (QueryOp × Value)}
    (hand : hasKey "$and" (front ++ .field name (.operators ops) :: back) = false)
    (hfront : ∀ c ∈ front, c.key ≠ name) (hback : ∀ c ∈ back, c.key ≠ name)
    (hdisjoint : disjointOperators ops more = true) :
    Filter.and (front ++ .field name (.operators ops) :: back) (.ofField name (.operators more)) =
      front ++ .field name (.operators (ops ++ more)) :: back := by
  have hnone : ∀ {f : Filter}, (∀ c ∈ f, c.key ≠ name) →
      f.filter (fun c => (ofField name (.operators more)).hasKey c.key) = [] := by
    intro f hf
    apply List.filter_eq_nil_iff.mpr
    intro c hc
    rw [hasKey_ofField]
    simpa using (hf c hc).symm
  have hself : (ofField name (.operators more)).hasKey
      (Clause.field name (.operators ops)).key = true := by
    rw [hasKey_ofField]
    exact beq_self_eq_true name
  have hshared : (front ++ .field name (.operators ops) :: back).filter
      (fun c => (ofField name (.operators more)).hasKey c.key) =
        [.field name (.operators ops)] := by
    rw [List.filter_append, hnone hfront, List.nil_append, List.filter_cons, if_pos hself,
      hnone hback]
  have hfind : (ofField name (.operators more)).find? (·.key == name) =
      some (.field name (.operators more)) := by
    simp [ofField, Clause.key]
  have hmerge : merge? (front ++ .field name (.operators ops) :: back)
      (ofField name (.operators more)) =
        some (front ++ .field name (.operators (ops ++ more)) :: back) := by
    rw [merge?, hshared]
    simp only [hfind, hdisjoint, addOperators_append hfront]
    rfl
  have hany : ((front ++ .field name (.operators ops) :: back).any
      fun c => (ofField name (.operators more)).hasKey c.key) = true :=
    List.any_eq_true.mpr ⟨_, List.mem_append_right front List.mem_cons_self, hself⟩
  have hempty : (front ++ .field name (.operators ops) :: back).isEmpty = false := by simp
  simp only [Filter.and, hempty, hand, hany, hmerge]
  rfl

theorem hasKey_flattened {tests : List (String × Predicate)} (h : ∀ t ∈ tests, t.1 ≠ "$and") :
    (flattened tests).hasKey "$and" = false := by
  rw [hasKey, List.any_eq_false]
  intro c hc
  have hkey : c.key ∈ (flattened tests).map Clause.key := List.mem_map_of_mem hc
  rw [map_key_flattened, Where.mem_distinct] at hkey
  obtain ⟨t, ht, hname⟩ := List.mem_map.mp hkey
  simpa [← hname] using h t ht

/-- One more test goes into the clause of its field, or else into a new clause at the end. -/
theorem flattened_and {tests : List (String × Predicate)} {name : String} {p : Predicate}
    (hand : ∀ t ∈ tests, t.1 ≠ "$and") (hp : ∀ t ∈ tests, t.1 = name → t.2.Compatible p) :
    (flattened tests).and (.ofField name p) = flattened (tests ++ [(name, p)]) := by
  have hno := hasKey_flattened hand
  have hconcat := Where.distinct_concat (tests.map fun t => t.1) name
  have hnodup := Where.nodup_distinct (tests.map fun t => t.1)
  have hmap : (tests ++ [(name, p)]).map (fun t => t.1) = tests.map (fun t => t.1) ++ [name] :=
    List.map_append
  have hsame : ∀ names : List String, name ∉ names →
      names.map (fun m => Clause.field m (gathered (tests ++ [(name, p)]) m)) =
        names.map fun m => .field m (gathered tests m) := by
    intro names hnot
    apply List.map_congr_left
    intro m hm
    have hne : m ≠ name := fun heq => hnot (heq ▸ hm)
    rw [gathered_concat_of_ne hne]
  have hkey : ∀ names : List String, name ∉ names →
      ∀ c ∈ names.map (fun m => Clause.field m (gathered tests m)), c.key ≠ name := by
    intro names hnot c hc
    obtain ⟨m, hm, rfl⟩ := List.mem_map.mp hc
    exact fun heq => hnot (heq ▸ hm)
  by_cases hmem : name ∈ tests.map fun t => t.1
  · -- The field has a clause, between those of other fields.
    obtain ⟨ops, more, rfl, hgathered, hdisjoint, hnew⟩ := gathered_concat_of_mem hmem hp
    obtain ⟨front, back, hnames⟩ := List.append_of_mem (Where.mem_distinct.mpr hmem)
    rw [hnames, List.nodup_middle, List.nodup_cons, List.mem_append, not_or] at hnodup
    rw [if_pos (by simpa [Where.mem_distinct] using hmem), hnames] at hconcat
    rw [flattened, hnames, List.map_append, List.map_cons, hgathered] at hno ⊢
    rw [and_ofField_operators hno (hkey front hnodup.1.1) (hkey back hnodup.1.2) hdisjoint,
      flattened, hmap, hconcat, List.map_append, List.map_cons, hnew, hsame front hnodup.1.1,
      hsame back hnodup.1.2]
  · have hnot : name ∉ Statement.distinct (tests.map fun t => t.1) := by
      rwa [Where.mem_distinct]
    rw [if_neg (by simpa [Where.mem_distinct] using hmem)] at hconcat
    rw [and_ofField_of_notMem hno (hkey _ hnot), flattened, flattened, hmap, hconcat,
      List.map_append, hsame _ hnot, List.map_singleton, gathered_concat_of_notMem hmem]

theorem field_mem_flattened {tests : List (String × Predicate)} {name : String} {p : Predicate}
    (h : (name, p) ∈ tests) : .field name (gathered tests name) ∈ flattened tests :=
  List.mem_map.mpr ⟨name, Where.mem_distinct.mpr (List.mem_map.mpr ⟨_, h, rfl⟩), rfl⟩

section Pairwise

variable {tests : List (String × Predicate)} {name : String}
  (hcompatible : tests.Pairwise fun s t => s.1 = t.1 → s.2.Compatible t.2)
include hcompatible

theorem lookup_of_mem {p : Predicate} (h : (name, p) ∈ tests) :
    ∃ q, tests.lookup name = some q ∧ (q = p ∨ q.Compatible p) := by
  obtain ⟨q, front, back, hq, rfl, hfront⟩ := exists_lookup (List.mem_map.mpr ⟨_, h, rfl⟩)
  refine ⟨q, hq, ?_⟩
  rcases List.mem_append.mp h with h | h
  · exact absurd rfl (hfront _ h)
  rcases List.mem_cons.mp h with h | h
  · exact .inl (Prod.mk.inj h).2.symm
  · obtain ⟨-, hback, -⟩ := List.pairwise_append.mp hcompatible
    exact .inr ((List.pairwise_cons.mp hback).1 _ h rfl)

theorem gathered_of_operators {ops : List (QueryOp × Value)} (h : (name, .operators ops) ∈ tests) :
    gathered tests name =
      .operators ((tests.filter (·.1 == name)).flatMap (·.2.operatorList)) := by
  obtain ⟨q, hq, rfl | ⟨first, more, rfl, -⟩⟩ := lookup_of_mem hcompatible h
  · rw [gathered, hq]
  · rw [gathered, hq]

theorem gathered_of_forall_ne {p : Predicate} (h : (name, p) ∈ tests)
    (hp : ∀ ops, p ≠ .operators ops) : gathered tests name = p := by
  obtain ⟨q, hq, rfl | ⟨first, more, -, rfl, -⟩⟩ := lookup_of_mem hcompatible h
  · rw [gathered, hq]
    cases q with
    | equals value => rfl
    | pattern text => rfl
    | operators ops => exact absurd rfl (hp ops)
  · exact absurd rfl (hp more)

end Pairwise

end Filter

namespace Condition

theorem reduce_conjoined_tests {registry : Registry} {ls : List Closed}
    {tests : List (String × Predicate)}
    (hconvert : ls.map (Closed.convert registry) = tests.map fun t => .ok (.ofField t.1 t.2))
    (hand : ∀ t ∈ tests, t.1 ≠ "$and")
    (hcompatible : tests.Pairwise fun s t => s.1 = t.1 → s.2.Compatible t.2) :
    reduce registry (conjoined ls) = .ok (Filter.flattened tests) := by
  induction tests using List.reverseRecOn generalizing ls with
  | nil =>
    rw [List.map_eq_nil_iff.mp hconvert, reduce, reduceFrom_conjoined]
    rfl
  | append_singleton tests t ih =>
    rw [List.map_append] at hconvert
    obtain ⟨front, back, rfl, hfront, hback⟩ := List.map_eq_append_iff.mp hconvert
    obtain ⟨l, rfl, hl⟩ := List.map_eq_singleton_iff.mp hback
    obtain ⟨hpairwise, -, hlast⟩ := List.pairwise_append.mp hcompatible
    have hand' : ∀ s ∈ tests, s.1 ≠ "$and" := fun s hs => hand s (List.mem_append_left _ hs)
    have hstep : (Filter.flattened tests).and (.ofField t.1 t.2) =
        Filter.flattened (tests ++ [t]) :=
      Filter.flattened_and hand' fun s hs hname => hlast s hs t List.mem_cons_self hname
    rw [reduce_conjoined_append, ih hfront hand' hpairwise, ← hstep]
    simp only [bind, Except.bind, List.foldlM_cons, conjoin, hl]
    rfl

/-- Comparisons joined by `AND`, each of one field, of which any two on the same field are operators
that differ. Their filter has no `$and` and no `$or`, but one clause for each field in order of
first occurrence. The clause of a field with operators has all of them in order, and that of any
other field is what the field is compared with. -/
theorem reduce_conjoined_flat (registry : Registry) (ls : List Closed)
    (tests : List (String × Predicate))
    (hconvert : ls.map (Closed.convert registry) = tests.map fun t => .ok (.ofField t.1 t.2))
    (hand : ∀ t ∈ tests, t.1 ≠ "$and")
    (hcompatible : tests.Pairwise fun s t => s.1 = t.1 → s.2.Compatible t.2) :
    ∃ f, reduce registry (conjoined ls) = .ok f ∧
      (∀ c ∈ f, ∃ name p, c = .field name p) ∧
      f.map Clause.key = Statement.distinct (tests.map (·.1)) ∧
      (∀ name ops, (name, .operators ops) ∈ tests → .field name (.operators
        ((tests.filter (·.1 == name)).flatMap (·.2.operatorList))) ∈ f) ∧
      ∀ name p, (name, p) ∈ tests → (∀ ops, p ≠ .operators ops) → .field name p ∈ f := by
  refine ⟨_, reduce_conjoined_tests hconvert hand hcompatible, ?_, Filter.map_key_flattened tests,
    ?_, ?_⟩
  · intro c hc
    obtain ⟨name, -, rfl⟩ := List.mem_map.mp hc
    exact ⟨name, _, rfl⟩
  · intro name ops hmem
    rw [← Filter.gathered_of_operators hcompatible hmem]
    exact Filter.field_mem_flattened hmem
  · intro name p hmem hp
    rw [← Filter.gathered_of_forall_ne hcompatible hmem hp]
    exact Filter.field_mem_flattened hmem

/-- Three comparisons of one field meet in its clause, with those of two other fields between
them. -/
theorem reduce_conjoined_flat_range :
    let ls : List Closed := [⟨"a >= 1", ["a"], by decide⟩, ⟨"b = 'x'", ["b", "x"], by decide⟩,
      ⟨"a <= 9", ["a"], by decide⟩, ⟨"c LIKE 'y'", ["c", "y"], by decide⟩,
      ⟨"a <> 5", ["a"], by decide⟩]
    let tests : List (String × Predicate) := [("a", .operator .gte (.int 1)),
      ("b", .equals (.string "x")), ("a", .operator .lte (.int 9)), ("c", .pattern "y"),
      ("a", .operator .ne (.int 5))]
    ls.map (Closed.convert .default) = tests.map (fun t => .ok (.ofField t.1 t.2)) ∧
      (∀ t ∈ tests, t.1 ≠ "$and") ∧
      tests.Pairwise (fun s t => s.1 = t.1 → s.2.Compatible t.2) ∧
      ∃ f, reduce .default (conjoined ls) = .ok f ∧ f.map Clause.key = ["a", "b", "c"] ∧
        .field "a" (.operators [(.gte, .int 1), (.lte, .int 9), (.ne, .int 5)]) ∈ f := by
  intro ls tests
  have hconvert : ls.map (Closed.convert .default) =
      tests.map fun t => .ok (.ofField t.1 t.2) := by
    simp only [ls, tests, List.map_cons, List.map_nil]
    rw [Closed.convert_of_bare rfl rfl, Closed.convert_of_bare rfl rfl,
      Closed.convert_of_bare rfl rfl, Closed.convert_of_bare rfl rfl,
      Closed.convert_of_bare rfl rfl]
    rfl
  have hand : ∀ t ∈ tests, t.1 ≠ "$and" := by simp [tests]
  have hcompatible : tests.Pairwise fun s t => s.1 = t.1 → s.2.Compatible t.2 := by
    simp [tests, Predicate.Compatible, Predicate.operator]
  obtain ⟨f, hf, -, hkeys, hoperators, -⟩ :=
    reduce_conjoined_flat .default ls tests hconvert hand hcompatible
  exact ⟨hconvert, hand, hcompatible, f, hf, hkeys,
    hoperators "a" [(.gte, .int 1)] List.mem_cons_self⟩

end Condition

end DocQuery
