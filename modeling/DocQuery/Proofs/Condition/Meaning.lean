import DocQuery.Proofs.Condition.Reduction

/-! The meaning of a condition list: it fails with its leftmost comparison that has no filter, and
otherwise means what its expression says of the filters of its comparisons. -/

namespace DocQuery.Condition

def failure? {ε α : Type} : Except ε α → Option ε
  | .error e => some e
  | .ok _ => none

theorem failure?_combine {ε α : Type} (x y : Except ε α) (combine : α → α → α) :
    failure? (do let a ← x; let b ← y; return combine a b) = (failure? x).or (failure? y) := by
  cases x <;> cases y <;> rfl

theorem combine_eq_ok {ε α : Type} {x y : Except ε α} {combine : α → α → α} {c : α}
    (h : (do let a ← x; let b ← y; return combine a b) = .ok c) :
    ∃ a b, x = .ok a ∧ y = .ok b ∧ combine a b = c := by
  cases x with
  | error e => cases h
  | ok a =>
    cases y with
    | error e => cases h
    | ok b => exact ⟨a, b, rfl, rfl, Except.ok.inj h⟩

namespace Expression

variable {level : Level} {ε : Type} {convert : Leaf → Except ε Filter}

theorem failure?_filter (e : Expression level) :
    failure? (e.filter convert) = e.leaves.findSome? fun l => failure? (convert l) := by
  induction e with
  | leaf l => simp [filter, leaves]
  | group a b e ih => exact ih
  | primary p ih => exact ih
  | and x p ihx ihp => rw [filter, failure?_combine, ihx, ihp, leaves, List.findSome?_append]
  | conjunction x ih => exact ih
  | or d x ihd ihx => rw [filter, failure?_combine, ihd, ihx, leaves, List.findSome?_append]

theorem verdict_filter {e : Expression level} {f : Filter} (h : e.filter convert = .ok f)
    {σ : Truth} {judge : Leaf → Verdict}
    (hjudge : ∀ l ∈ e.leaves, ∀ g, convert l = .ok g → judge l = g.verdict σ) :
    f.verdict σ = e.verdict judge := by
  induction e generalizing f with
  | leaf l => exact (hjudge l List.mem_cons_self f h).symm
  | group a b e ih => exact ih h hjudge
  | primary p ih => exact ih h hjudge
  | and x p ihx ihp =>
    obtain ⟨g, g', hx, hp, rfl⟩ := combine_eq_ok h
    have hg := ihx hx fun l hl => hjudge l (List.mem_append_left _ hl)
    have hg' := ihp hp fun l hl => hjudge l (List.mem_append_right _ hl)
    rw [verdict, Filter.verdict_and, hg, hg']
  | conjunction x ih => exact ih h hjudge
  | or d x ihd ihx =>
    obtain ⟨g, g', hd, hx, rfl⟩ := combine_eq_ok h
    have hg := ihd hd fun l hl => hjudge l (List.mem_append_left _ hl)
    have hg' := ihx hx fun l hl => hjudge l (List.mem_append_right _ hl)
    rw [verdict, Filter.verdict_or, hg, hg']

theorem reduceFrom_eq_filter (convert : List String → List Char → Except InlineError Filter)
    (e : Expression .disjunction) :
    reduceFrom convert [] (e.conditions [] []) =
      e.filter fun l => (convert l.names l.text).mapError .inline := by
  have h := reduceFrom_conditions convert e [] .none .none [] (fun _ => rfl) (fun _ => by simp)
  simp only [Filter.nil_and, reduceFrom_nil, List.append_nil] at h
  exact h.trans (bind_pure _)

end Expression

def Leaf.convert (registry : Registry) (l : Leaf) : Except ReductionError Filter :=
  (Comparison.convert registry l.names l.text).mapError .inline

/-- What a comparison on its own says. One that fails has no filter to be read. -/
def Leaf.verdict (registry : Registry) (σ : Truth) (l : Leaf) : Verdict :=
  match l.convert registry with
  | .ok f => f.verdict σ
  | .error _ => .unreadable

theorem Leaf.verdict_of_convert {registry : Registry} {l : Leaf} {f : Filter}
    (h : l.convert registry = .ok f) (σ : Truth) : l.verdict registry σ = f.verdict σ := by
  rw [verdict, h]

theorem reduce_eq_filter (registry : Registry) (e : Expression .disjunction) :
    reduce registry (e.conditions [] []) = e.filter (Leaf.convert registry) :=
  e.reduceFrom_eq_filter (Comparison.convert registry)

/-- Reduction of the list of an expression. Whatever converts comparisons is given exactly the text
and the names of each; the list fails with its leftmost failing comparison; and otherwise its filter
says what the expression makes of the filters of its comparisons. -/
theorem reduce_expression (registry : Registry) (e : Expression .disjunction) :
    (∀ convert, reduceFrom convert [] (e.conditions [] []) =
      e.filter fun l => (convert l.names l.text).mapError .inline) ∧
    failure? (reduce registry (e.conditions [] [])) =
      (e.leaves.findSome? fun l => failure? (l.convert registry)) ∧
    ∀ f, reduce registry (e.conditions [] []) = .ok f →
      ∀ σ, f.verdict σ = e.verdict (Leaf.verdict registry σ) ∧
        ∀ truth, (∀ l ∈ e.leaves, l.verdict registry σ = .decided (truth l)) →
          f.holds σ = e.eval truth := by
  refine ⟨fun convert => e.reduceFrom_eq_filter convert, ?_, ?_⟩
  · rw [reduce_eq_filter, Expression.failure?_filter]
  · intro f h σ
    rw [reduce_eq_filter] at h
    have hverdict : f.verdict σ = e.verdict (Leaf.verdict registry σ) :=
      e.verdict_filter h fun l _ g hg => Leaf.verdict_of_convert hg σ
    refine ⟨hverdict, fun truth htruth => ?_⟩
    rw [Expression.verdict_of_forall_decided htruth] at hverdict
    exact Filter.holds_of_verdict_eq_decided hverdict

/-- A group whose last comparison has a bracket in a string. -/
theorem reduce_expression_grouped :
    let a : Leaf := .ofText "a = 1".toList ["a"] (by decide)
    let b : Leaf := .ofText "b = ')'".toList ["b", ")"] (by decide)
    let c : Leaf := .ofText "c > 3".toList ["c"] (by decide)
    let e : Expression .disjunction := .conjunction (.and (.primary (.group .none .none
      (.or (.conjunction (.primary (.leaf a))) (.primary (.leaf b))))) (.leaf c))
    e.conditions [] [] = [.leaf "(a = 1" ["a"], .connective "OR", .leaf "b = ')')" ["b", ")"],
        .connective "AND", .leaf "c > 3" ["c"]] ∧
      ∃ f, reduce .default (e.conditions [] []) = .ok f ∧
        ∀ σ, f.holds σ = ((σ "a" (.equals (.int 1)) || σ "b" (.equals (.string ")"))) &&
          σ "c" (.operator .gt (.int 3))) := by
  intro a b c e
  have ha : a.convert .default = .ok (.ofField "a" (.equals (.int 1))) := rfl
  have hb : b.convert .default = .ok (.ofField "b" (.equals (.string ")"))) := rfl
  have hc : c.convert .default = .ok (.ofField "c" (.operator .gt (.int 3))) := rfl
  refine ⟨by decide, ?_⟩
  obtain ⟨-, hfail, hmeaning⟩ := reduce_expression .default e
  clear_value a b c
  cases h : reduce .default (e.conditions [] []) with
  | error error => simp [h, failure?, e, Expression.leaves, ha, hb, hc] at hfail
  | ok f =>
    refine ⟨f, rfl, fun σ => ?_⟩
    have hverdict := (hmeaning f h σ).1
    simp only [e, Expression.verdict, Leaf.verdict_of_convert ha, Leaf.verdict_of_convert hb,
      Leaf.verdict_of_convert hc] at hverdict
    refine Filter.holds_of_verdict_eq_decided (hverdict.trans ?_)
    simp [Filter.ofField, Filter.verdict, Filter.isReadable, Clause.allReadable, Clause.isReadable,
      Predicate.holds, Predicate.operator]

end DocQuery.Condition
