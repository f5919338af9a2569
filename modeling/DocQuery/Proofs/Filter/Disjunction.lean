import DocQuery.Proofs.Filter.Cases

/-! Disjunctions of several filters. How they are bracketed makes no difference: the alternatives of
each filter, in order, are the members of a single `$or`. -/

namespace DocQuery.Filter

theorem disjuncts_or {f g : Filter} (hf : f ≠ []) (hg : g ≠ []) :
    (f.or g).disjuncts = f.disjuncts ++ g.disjuncts := by
  rw [or_of_ne_nil hf hg]
  rfl

protected theorem or_assoc (f g h : Filter) : (f.or g).or h = f.or (g.or h) := by
  by_cases hf : f = []
  · rw [hf, nil_or, nil_or]
  by_cases hg : g = []
  · rw [hg, nil_or, or_nil]
  by_cases hh : h = []
  · rw [hh, or_nil, or_nil]
  rw [or_of_ne_nil (or_ne_nil hf) hh, or_of_ne_nil hf (or_ne_nil hg), disjuncts_or hf hg,
    disjuncts_or hg hh, List.append_assoc]

inductive Bracketing where
  | single (f : Filter)
  | or (left right : Bracketing)

namespace Bracketing

def filter : Bracketing → Filter
  | single f => f
  | or left right => left.filter.or right.filter

def operands : Bracketing → List Filter
  | single f => [f]
  | or left right => left.operands ++ right.operands

end Bracketing

def nonempties (fs : List Filter) : List Filter :=
  fs.filter fun f => !f.isEmpty

theorem foldr_or_append (fs gs : List Filter) :
    (fs ++ gs).foldr Filter.or [] = (fs.foldr Filter.or []).or (gs.foldr Filter.or []) := by
  induction fs with
  | nil => rfl
  | cons f fs ih => rw [List.cons_append, List.foldr_cons, List.foldr_cons, ih, Filter.or_assoc]

theorem Bracketing.filter_eq_foldr (b : Bracketing) : b.filter = b.operands.foldr Filter.or [] := by
  induction b with
  | single f => exact (or_nil f).symm
  | or left right ihl ihr => rw [filter, operands, foldr_or_append, ihl, ihr]

theorem foldr_or (fs : List Filter) :
    fs.foldr Filter.or [] = match nonempties fs with
      | [] => []
      | [f] => f
      | gs => [.or (gs.flatMap disjuncts)] := by
  induction fs with
  | nil => rfl
  | cons f fs ih =>
    rw [List.foldr_cons, ih]
    by_cases hf : f = []
    · rw [hf, nil_or]
      rfl
    have hcons : nonempties (f :: fs) = f :: nonempties fs :=
      List.filter_cons_of_pos (by simpa using hf)
    rw [hcons]
    match hrest : nonempties fs with
    | [] => exact or_nil f
    | [g] =>
      have hg : g ∈ nonempties fs := by simp [hrest]
      have hne : g ≠ [] := by simpa using (List.mem_filter.mp hg).2
      simp [or_of_ne_nil hf hne]
    | g :: h :: gs => simp [or_of_ne_nil hf, disjuncts]

theorem Bracketing.filter_of_two_le {b : Bracketing}
    (h : 2 ≤ (nonempties b.operands).length) :
    b.filter = [.or ((nonempties b.operands).flatMap disjuncts)] := by
  rw [b.filter_eq_foldr, foldr_or]
  match hfs : nonempties b.operands with
  | [] => simp [hfs] at h
  | [f] => simp [hfs] at h
  | f :: g :: fs => rfl

/-- Filters form a monoid under `or`, with the empty filter as its unit. Of any number of filters,
at least two of which are not empty, every bracketing is one `$or`; its members are the members of
the filters that are such an `$or` themselves and the other filters, in order, without the empty
ones. -/
theorem or_monoid (f g h : Filter) :
    (f.or g).or h = f.or (g.or h) ∧ Filter.or [] f = f ∧ f.or [] = f ∧
      ∀ b : Bracketing, 2 ≤ (nonempties b.operands).length →
        b.filter = [.or ((nonempties b.operands).flatMap disjuncts)] :=
  ⟨Filter.or_assoc f g h, nil_or f, or_nil f, fun _ hb => Bracketing.filter_of_two_le hb⟩

/-- Two disjunctions, an empty filter and a conjunction in brackets from the right. -/
theorem or_monoid_nested :
    let a : Filter := .ofField "a" (.equals (.int 1))
    let b : Filter := .ofField "b" (.equals (.int 2))
    let c : Filter := [.field "c" (.equals (.int 3)), .field "d" (.equals (.int 4))]
    let tree : Bracketing :=
      .or (.single [.or [a, b]]) (.or (.single []) (.or (.single c) (.single [.or [b, a]])))
    2 ≤ (nonempties tree.operands).length ∧ tree.filter = [.or [a, b, c, b, a]] := by
  intro a b c tree
  have htwo : 2 ≤ (nonempties tree.operands).length := by decide
  exact ⟨htwo, (or_monoid a b c).2.2.2 tree htwo⟩

end DocQuery.Filter
