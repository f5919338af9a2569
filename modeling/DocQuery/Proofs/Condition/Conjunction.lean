import DocQuery.Proofs.Condition.Reduction
import DocQuery.Proofs.Filter.Rendering
import DocQuery.Proofs.Filter.Meaning
import DocQuery.Statement.Mismatch

/-! Comparisons joined by `AND`, one of which says nothing. Its filter is empty, and a conjunction
with the empty filter is the other side, except where that side collects its members in an `$and`:
there the empty filter becomes one more member, which changes the filter but not its meaning. -/

namespace DocQuery

namespace Filter

/-- The first clause with the key `$and` is a list, to which a conjunction adds its members. -/
def absorbs (f : Filter) : Bool :=
  match f.find? (·.key == "$and") with
  | some (.and _) => true
  | _ => false

section Absorbs

variable {before after : Filter} (h : ∀ c ∈ before, c.key ≠ "$and") (members more : List Filter)
include h

theorem absorbs_append : absorbs (before ++ .and members :: after) = true := by
  have hnone : before.find? (·.key == "$and") = none := by
    simpa [List.find?_eq_none] using h
  have hfind : (before ++ Clause.and members :: after).find? (·.key == "$and") =
      some (.and members) := by
    rw [List.find?_append, hnone]
    rfl
  rw [absorbs, hfind]

theorem extendAnd_append :
    extendAnd more (before ++ .and members :: after) =
      before ++ .and (members ++ more) :: after := by
  induction before with
  | nil => rfl
  | cons c before ih =>
    have hc : c.key ≠ "$and" := h c List.mem_cons_self
    have hrest := ih fun d hd => h d (List.mem_cons_of_mem c hd)
    cases c with
    | field name predicate => simp [extendAnd, hc, hrest]
    | and members => exact absurd rfl hc
    | or members => simp [extendAnd, hc, hrest]

end Absorbs

theorem absorbs_iff {f : Filter} :
    f.absorbs = true ↔ ∃ before members after, f = before ++ Clause.and members :: after ∧
      ∀ c ∈ before, c.key ≠ "$and" := by
  constructor
  · intro h
    unfold absorbs at h
    split at h
    · rename_i members hfind
      obtain ⟨-, before, after, rfl, hbefore⟩ := List.find?_eq_some_iff_append.mp hfind
      exact ⟨before, members, after, rfl, by simpa using hbefore⟩
    · cases h
  · rintro ⟨before, members, after, rfl, h⟩
    exact absorbs_append h members

theorem extendAnd_of_not_absorbs {f : Filter} (h : f.absorbs = false) (more : List Filter) :
    f.extendAnd more = f := by
  induction f with
  | nil => rfl
  | cons c f ih =>
    by_cases hc : c.key = "$and"
    · cases c with
      | field name predicate => simp [extendAnd, hc]
      | and members => simp [absorbs, Clause.key] at h
      | or members => simp [Clause.key] at hc
    · have hrest : extendAnd more f = f := ih (by simpa [absorbs, hc] using h)
      cases c with
      | field name predicate => simp [extendAnd, hc, hrest]
      | and members => exact absurd rfl hc
      | or members => simp [extendAnd, hc, hrest]

theorem and_append {before after : Filter} (h : ∀ c ∈ before, c.key ≠ "$and")
    (members : List Filter) (g : Filter) :
    Filter.and (before ++ .and members :: after) g =
      before ++ .and (members ++ g.conjuncts) :: after := by
  have hkey : hasKey "$and" (before ++ .and members :: after) = true := by
    simp [hasKey, Clause.key]
  rw [Filter.and, if_neg (by simp), if_pos hkey, extendAnd_append h]

theorem and_nil_of_not_absorbs {f : Filter} (h : f.absorbs = false) : f.and [] = f := by
  obtain ⟨rfl, _⟩ | ⟨_, hand⟩ | ⟨_, hand⟩ | hmerge | ⟨_, ⟨c, _, hc⟩, _⟩ := and_cases f []
  · rfl
  · rw [hand, extendAnd_of_not_absorbs h]
  · rw [hand, List.append_nil]
  · obtain ⟨_, _, _, _, hfind, _⟩ := merge?_eq_some hmerge
    cases hfind
  · cases hc

theorem and_nil_eq_self_iff {f : Filter} : f.and [] = f ↔ f.absorbs = false := by
  refine ⟨fun hand => ?_, and_nil_of_not_absorbs⟩
  by_contra h
  obtain ⟨before, members, after, rfl, hbefore⟩ := absorbs_iff.mp (by simpa using h)
  rw [and_append hbefore] at hand
  simp [conjuncts] at hand

/-! ### Documents -/

theorem length_memberValues (members : List Filter) :
    (Clause.memberValues members).length = members.length := by
  induction members with
  | nil => rfl
  | cons m members ih => simp [Clause.memberValues, ih]

theorem entries_append (f g : Filter) :
    Clause.entries (f ++ g) = Clause.entries f ++ Clause.entries g := by
  induction f with
  | nil => rfl
  | cons c f ih => simp [Clause.entries, ih]

theorem document_of_nodup {f : Filter} (h : (f.map Clause.key).Nodup) :
    f.document = Clause.entries f :=
  Document.insertAll_nil (by rw [keys_entries]; exact h)

theorem Built.nodup_keys {f : Filter} (h : f.Built fun _ _ => True) :
    (f.map Clause.key).Nodup :=
  (h.normal fun _ _ _ _ _ _ => trivial).nodup_keys

theorem length_eq_of_document_eq {before after : Filter} {ms ns : List Filter}
    (hms : Built (fun _ _ => True) (before ++ .and ms :: after))
    (hns : Built (fun _ _ => True) (before ++ .and ns :: after))
    (h : document (before ++ .and ms :: after) = document (before ++ .and ns :: after)) :
    ms.length = ns.length := by
  rw [document_of_nodup hms.nodup_keys, document_of_nodup hns.nodup_keys, entries_append,
    entries_append] at h
  have hcons := List.append_cancel_left h
  simp only [Clause.entries, Clause.value, List.cons.injEq, Prod.mk.injEq, Value.array.injEq,
    and_true] at hcons
  rw [← length_memberValues ms, hcons.2, length_memberValues ns]

end Filter

theorem Comparison.ofWords_cases {registry : Registry} {names : List String} {mask : Mask}
    {words : List (List Char)} {f : Filter} (h : ofWords registry names mask words = .ok f) :
    f = [] ∨ ∃ name predicate, f = .ofField name predicate := by
  unfold ofWords at h
  split at h
  · rename_i field op rest
    dsimp only at h
    split at h
    · exact .inl (Except.ok.inj h).symm
    · split at h
      · obtain ⟨items, -, h⟩ := Statement.exists_of_bind_eq_ok h
        exact .inr ⟨_, _, (Except.ok.inj h).symm⟩
      · obtain ⟨bounds?, -, h⟩ := Statement.exists_of_bind_eq_ok h
        split at h
        · exact .inl (Except.ok.inj h).symm
        · exact .inr ⟨_, _, (Except.ok.inj h).symm⟩
      · obtain ⟨value, -, h⟩ := Statement.exists_of_bind_eq_ok h
        exact .inr ⟨_, _, (Except.ok.inj h).symm⟩
  · exact .inl (Except.ok.inj h).symm

namespace Condition

/-- A comparison that leaves no bracket open and closes none. -/
structure Closed where
  text : String
  names : List String
  depth_eq : (leaf text names).depth = 0

namespace Closed

def condition (l : Closed) : Condition :=
  .leaf l.text l.names

def convert (registry : Registry) (l : Closed) : Except ReductionError Filter :=
  (Comparison.convert registry l.names (stripWrapping (Text.trim l.text.toList))).mapError .inline

theorem convert_of_bare {registry : Registry} {text : String} {names : List String}
    {h : (leaf text names).depth = 0} (htrim : Text.trim text.toList = text.toList)
    (hwrapped : isWrapped text.toList = false) : convert registry ⟨text, names, h⟩ =
      (Comparison.convert registry names text.toList).mapError .inline := by
  rw [convert, htrim, stripWrapping_of_not_isWrapped hwrapped]

theorem built_of_convert {registry : Registry} {l : Closed} {f : Filter}
    (h : l.convert registry = .ok f) : f.Built fun _ _ => True := by
  unfold convert at h
  cases hc : Comparison.convert registry l.names (stripWrapping (Text.trim l.text.toList)) with
  | error e =>
    rw [hc] at h
    cases h
  | ok g =>
    rw [hc] at h
    cases h
    obtain rfl | ⟨name, predicate, rfl⟩ := Comparison.ofWords_cases hc
    · exact .empty
    · exact .field trivial

end Closed

def conjoined (ls : List Closed) : List Condition :=
  (ls.map Closed.condition).intersperse (.connective "AND")

def conjoin (registry : Registry) (f : Filter) (l : Closed) : Except ReductionError Filter := do
  return f.and (← l.convert registry)

theorem reduceFrom_conjoined (registry : Registry) (f : Filter) (ls : List Closed) :
    reduceFrom (Comparison.convert registry) f (conjoined ls) = ls.foldlM (conjoin registry) f := by
  induction ls generalizing f with
  | nil => rw [conjoined, List.map_nil, List.intersperse_nil, reduceFrom_nil]; rfl
  | cons l ls ih =>
    cases ls with
    | nil =>
      have hl := reduceFrom_leaf (Comparison.convert registry) f [] l.depth_eq
      rw [conjoined, List.map_cons, List.map_nil, List.intersperse_singleton, Closed.condition, hl]
      simp only [reduceFrom_nil]
      simp [conjoin, Closed.convert]
      rfl
    | cons k ls =>
      have hl := reduceFrom_leaf (Comparison.convert registry) f
        (.connective "AND" :: conjoined (k :: ls)) l.depth_eq
      have hcons : conjoined (l :: k :: ls) =
          .leaf l.text l.names :: .connective "AND" :: conjoined (k :: ls) := rfl
      rw [hcons, hl]
      simp only [reduceFrom_and, ih]
      rw [List.foldlM_cons]
      simp [conjoin, Closed.convert]

theorem reduce_conjoined_append (registry : Registry) (front back : List Closed) :
    reduce registry (conjoined (front ++ back)) =
      (reduce registry (conjoined front) >>= fun p => back.foldlM (conjoin registry) p) := by
  rw [reduce, reduce, reduceFrom_conjoined, reduceFrom_conjoined, List.foldlM_append]

theorem conjoin_eq_ok {registry : Registry} {f g : Filter} {l : Closed}
    (h : conjoin registry f l = .ok g) :
    ∃ fragment, l.convert registry = .ok fragment ∧ g = f.and fragment := by
  obtain ⟨fragment, hl, h⟩ := Statement.exists_of_bind_eq_ok h
  exact ⟨fragment, hl, (Except.ok.inj h).symm⟩

theorem built_of_foldlM_conjoin {registry : Registry} {ls : List Closed} {f g : Filter}
    (hf : f.Built fun _ _ => True) (h : ls.foldlM (conjoin registry) f = .ok g) :
    g.Built fun _ _ => True := by
  induction ls generalizing f with
  | nil =>
    cases h
    exact hf
  | cons l ls ih =>
    obtain ⟨f', hl, h⟩ := Statement.exists_of_bind_eq_ok h
    obtain ⟨fragment, hfragment, rfl⟩ := conjoin_eq_ok hl
    exact ih (hf.and (Closed.built_of_convert hfragment)) h

theorem built_of_reduce {registry : Registry} {ls : List Closed} {f : Filter}
    (h : reduce registry (conjoined ls) = .ok f) : f.Built fun _ _ => True := by
  rw [reduce, reduceFrom_conjoined] at h
  exact built_of_foldlM_conjoin .empty h

/-- A filter that absorbs one comparison absorbs all that follow, and keeps the members it has. -/
theorem foldlM_conjoin_absorbs {registry : Registry} {ls : List Closed} {before after f : Filter}
    {members : List Filter} (hbefore : ∀ c ∈ before, c.key ≠ "$and")
    (h : ls.foldlM (conjoin registry) (before ++ .and members :: after) = .ok f) :
    ∃ more, f = before ++ .and (members ++ more) :: after ∧
      ∀ others, ls.foldlM (conjoin registry) (before ++ .and others :: after) =
        .ok (before ++ .and (others ++ more) :: after) := by
  induction ls generalizing members with
  | nil =>
    cases h
    exact ⟨[], by simp, fun others => by simp [pure, Except.pure]⟩
  | cons l ls ih =>
    obtain ⟨f', hl, h⟩ := Statement.exists_of_bind_eq_ok h
    obtain ⟨fragment, hfragment, rfl⟩ := conjoin_eq_ok hl
    rw [Filter.and_append hbefore] at h
    obtain ⟨more, rfl, hmore⟩ := ih h
    refine ⟨fragment.conjuncts ++ more, by simp, fun others => ?_⟩
    have hstep : conjoin registry (before ++ .and others :: after) l =
        .ok (before ++ .and (others ++ fragment.conjuncts) :: after) := by
      rw [conjoin, hfragment, ← Filter.and_append hbefore]
      rfl
    rw [List.foldlM_cons, hstep]
    exact (hmore (others ++ fragment.conjuncts)).trans (by rw [List.append_assoc])

/-- A comparison without a filter, put anywhere among comparisons joined by `AND`. The filter and
its document stay the same unless the comparisons before it have been collected in an `$and`: then
this `$and` has an empty member more, and the meaning alone stays the same. That is how the empty
filter acts in a conjunction: on the left it is neutral, on the right beside all filters that do
not absorb it. -/
theorem reduce_insert_vacuous (registry : Registry) (front back : List Closed) (u : Closed)
    (hu : u.convert registry = .ok []) (f : Filter)
    (hf : reduce registry (conjoined (front ++ back)) = .ok f) :
    (∃ p g, reduce registry (conjoined front) = .ok p ∧
      reduce registry (conjoined (front ++ u :: back)) = .ok g ∧
      (g = f ↔ p.absorbs = false) ∧
      (g.document = f.document ↔ p.absorbs = false) ∧
      (p.absorbs = true → ∃ before members more after,
        f = before ++ .and (members ++ more) :: after ∧
          g = before ++ .and (members ++ [] :: more) :: after) ∧
      ∀ σ, g.holds σ = f.holds σ) ∧
    ∀ h : Filter, Filter.and [] h = h ∧ (h.and [] = h ↔ h.absorbs = false) := by
  refine ⟨?_, fun h => ⟨Filter.nil_and h, Filter.and_nil_eq_self_iff⟩⟩
  rw [reduce_conjoined_append] at hf
  obtain ⟨p, hp, hf⟩ := Statement.exists_of_bind_eq_ok hf
  have hinsert : reduce registry (conjoined (front ++ u :: back)) =
      back.foldlM (conjoin registry) (p.and []) := by
    rw [reduce_conjoined_append, hp]
    simp only [bind, Except.bind, List.foldlM_cons, conjoin, hu]
    rfl
  by_cases habsorbs : p.absorbs = true
  · obtain ⟨before, members, after, rfl, hbefore⟩ := Filter.absorbs_iff.mp habsorbs
    obtain ⟨more, rfl, hmore⟩ := foldlM_conjoin_absorbs hbefore hf
    have hand : Filter.and (before ++ .and members :: after) [] =
        before ++ .and (members ++ [[]]) :: after := Filter.and_append hbefore members []
    have hg := hmore (members ++ [[]])
    have hbuilt := built_of_reduce hp
    have hdocument : Filter.document (before ++ .and (members ++ [] :: more) :: after) ≠
        Filter.document (before ++ .and (members ++ more) :: after) := by
      intro he
      have hlength := Filter.length_eq_of_document_eq
        (built_of_foldlM_conjoin (by rw [← hand]; exact hbuilt.and .empty)
          (hg.trans (by rw [List.append_assoc]; rfl)))
        (built_of_foldlM_conjoin hbuilt hf) he
      simp at hlength
    refine ⟨_, before ++ .and (members ++ [] :: more) :: after, hp, ?_, ?_, ?_, ?_, ?_⟩
    · rw [hinsert, hand, hg, List.append_assoc]
      rfl
    · simp [habsorbs]
    · simpa [habsorbs] using hdocument
    · exact fun _ => ⟨before, members, more, after, rfl, rfl⟩
    · intro σ
      simp
  · have habsorbs' : p.absorbs = false := by simpa using habsorbs
    refine ⟨p, f, hp, ?_, by simp [habsorbs'], by simp [habsorbs'], ?_, fun _ => rfl⟩
    · rw [hinsert, Filter.and_nil_of_not_absorbs habsorbs']
      exact hf
    · intro h
      exact absurd h habsorbs

/-- Between comparisons of two fields a lone word changes nothing. -/
theorem reduce_insert_vacuous_between :
    let a : Closed := ⟨"a = 1", ["a"], by decide⟩
    let b : Closed := ⟨"b = 2", ["b"], by decide⟩
    let u : Closed := ⟨"foo", ["foo"], by decide⟩
    let f : Filter := [.field "a" (.equals (.int 1)), .field "b" (.equals (.int 2))]
    u.convert .default = .ok [] ∧ reduce .default (conjoined ([a] ++ [b])) = .ok f ∧
      reduce .default (conjoined ([a] ++ u :: [b])) = .ok f := by
  intro a b u f
  have ha : a.convert .default = .ok (.ofField "a" (.equals (.int 1))) :=
    (Closed.convert_of_bare rfl rfl).trans rfl
  have hb : b.convert .default = .ok (.ofField "b" (.equals (.int 2))) :=
    (Closed.convert_of_bare rfl rfl).trans rfl
  have hu : u.convert .default = .ok [] := (Closed.convert_of_bare rfl rfl).trans rfl
  have hp : reduce .default (conjoined [a]) = .ok (.ofField "a" (.equals (.int 1))) := by
    rw [reduce, reduceFrom_conjoined, List.foldlM_cons, conjoin, ha]
    rfl
  have hf : reduce .default (conjoined ([a] ++ [b])) = .ok f := by
    rw [reduce_conjoined_append, hp]
    simp only [bind, Except.bind, List.foldlM_cons, conjoin, hb]
    rfl
  obtain ⟨p, g, hp', hg, hiff, -⟩ := (reduce_insert_vacuous .default [a] [b] u hu f hf).1
  rw [hp] at hp'
  cases hp'
  rw [hiff.mpr rfl] at hg
  exact ⟨hu, hf, hg⟩

/-- Behind two values for one field a lone word adds an empty member. -/
theorem reduce_vacuous_after_conflict :
    let one : Closed := ⟨"a = 1", ["a"], by decide⟩
    let two : Closed := ⟨"a = 2", ["a"], by decide⟩
    let u : Closed := ⟨"foo", ["foo"], by decide⟩
    let f : Filter := .ofField "a" (.equals (.int 1))
    let g : Filter := .ofField "a" (.equals (.int 2))
    u.convert .default = .ok [] ∧
      reduce .default (conjoined [one, two]) = .ok [.and [f, g]] ∧
      reduce .default (conjoined [one, two, u]) = .ok [.and [f, g, []]] := by
  intro one two u f g
  have hone : one.convert .default = .ok f := (Closed.convert_of_bare rfl rfl).trans rfl
  have htwo : two.convert .default = .ok g := (Closed.convert_of_bare rfl rfl).trans rfl
  have hu : u.convert .default = .ok [] := (Closed.convert_of_bare rfl rfl).trans rfl
  refine ⟨hu, ?_, ?_⟩
  · simp only [reduce, reduceFrom_conjoined, List.foldlM_cons, conjoin, hone, htwo]
    rfl
  · simp only [reduce, reduceFrom_conjoined, List.foldlM_cons, conjoin, hone, htwo, hu]
    rfl

end Condition

end DocQuery
