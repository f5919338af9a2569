import DocQuery.Proofs.Arithmetic.Operands

/-! Steps as listings. Steps build an expression if they are its program, and otherwise they fail at
the first step that does not find what it is applied to, or at the end. -/

namespace DocQuery.Expr

open Arithmetic (isLeaf)

theorem ofSteps_eq_ok_iff {ss : List Step} {e : Expr} : ofSteps ss = .ok e ↔ ss = e.program := by
  constructor
  · exact eq_program_of_ofSteps
  · rintro rfl
    exact e.ofSteps_program

/-- How steps fail to list an expression. In front of the step at fault they list `es`, which are then
on the stack with the last one on top. -/
inductive Unlisted : List Step → ExprError → Prop where
  | nothing : Unlisted [] .empty
  | leftover {es : List Expr} (many : 2 ≤ es.length) :
    Unlisted (es.flatMap program) (.leftover (es.length - 1))
  | missing {es : List Expr} (few : es.length < 2) {s : Step} (applies : s.operand? = none)
    (rest : List Step) : Unlisted (es.flatMap program ++ s :: rest) (.missingOperand s)
  | target (es : List Expr) {target : Expr} (compound : isLeaf target = false) (argument : Expr)
    (rest : List Step) :
    Unlisted ((es ++ [target, argument]).flatMap program ++ .call :: rest) (.badCallTarget target)

theorem steps_flatMap_program (es stack : List Expr) (rest : List Step) :
    steps stack (es.flatMap program ++ rest) = steps (es.reverse ++ stack) rest := by
  induction es generalizing stack with
  | nil => rfl
  | cons e es ih =>
    rw [List.flatMap_cons, List.append_assoc, steps_program, ih, List.reverse_cons,
      List.append_assoc, List.singleton_append]

theorem steps_of_step_error {es : List Expr} {s : Step} {error : ExprError}
    (h : step es.reverse s = .error error) (rest : List Step) :
    steps [] (es.flatMap program ++ s :: rest) = .error error := by
  rw [steps_flatMap_program, List.append_nil, steps, h]

/-! ### What fails -/

theorem step_error_cases {stack : List Expr} {s : Step} {error : ExprError}
    (h : step stack s = .error error) :
    (stack.length < 2 ∧ s.operand? = none ∧ error = .missingOperand s) ∨
      ∃ argument target below, stack = argument :: target :: below ∧ isLeaf target = false ∧
        s = .call ∧ error = .badCallTarget target := by
  cases s with
  | operand text => cases h
  | operator op =>
    rcases stack with _ | ⟨right, _ | ⟨left, stack⟩⟩
    · cases h
      exact .inl ⟨by simp, rfl, rfl⟩
    · cases h
      exact .inl ⟨by simp, rfl, rfl⟩
    · cases h
  | call =>
    rcases stack with _ | ⟨argument, _ | ⟨target, stack⟩⟩
    · cases h
      exact .inl ⟨by simp, rfl, rfl⟩
    · cases h
      exact .inl ⟨by simp, rfl, rfl⟩
    · cases target with
      | leaf text => cases h
      | binary op left right =>
        cases h
        exact .inr ⟨argument, _, stack, rfl, rfl, rfl, rfl⟩
      | call function inner =>
        cases h
        exact .inr ⟨argument, _, stack, rfl, rfl, rfl, rfl⟩

theorem step_of_length_lt {stack : List Expr} (h : stack.length < 2) {s : Step}
    (hs : s.operand? = none) : step stack s = .error (.missingOperand s) := by
  rcases stack with _ | ⟨top, _ | ⟨next, below⟩⟩
  · cases s with
    | operand text => cases hs
    | operator op => rfl
    | call => rfl
  · cases s with
    | operand text => cases hs
    | operator op => rfl
    | call => rfl
  · simp only [List.length_cons] at h
    omega

theorem exists_of_steps_error {stack : List Expr} {ss : List Step} {error : ExprError}
    (h : steps stack ss = .error error) :
    ∃ (es : List Expr) (s : Step) (rest : List Step),
      stack.reverse.flatMap program ++ ss = es.flatMap program ++ s :: rest ∧
        step es.reverse s = .error error := by
  induction ss generalizing stack with
  | nil => cases h
  | cons s ss ih =>
    rw [steps] at h
    split at h
    · rename_i hstep
      cases h
      exact ⟨stack.reverse, s, ss, rfl, by rwa [List.reverse_reverse]⟩
    · rename_i next hstep
      obtain ⟨es, t, rest, hsplit, ht⟩ := ih h
      refine ⟨es, t, rest, ?_, ht⟩
      rw [← hsplit, ← program_of_step hstep, List.append_assoc, List.singleton_append]

theorem unlisted_of_ofSteps {ss : List Step} {error : ExprError} (h : ofSteps ss = .error error) :
    Unlisted ss error := by
  unfold ofSteps at h
  split at h
  · rename_i hsteps
    cases h
    obtain ⟨es, s, rest, hsplit, hs⟩ := exists_of_steps_error hsteps
    obtain rfl : ss = es.flatMap program ++ s :: rest := by simpa using hsplit
    rcases step_error_cases hs with
      ⟨hfew, happlies, rfl⟩ | ⟨argument, target, below, hes, hleaf, rfl, rfl⟩
    · exact .missing (by simpa using hfew) happlies rest
    · obtain rfl : es = below.reverse ++ [target, argument] := by
        rw [← List.reverse_reverse es, hes]
        simp
      exact .target _ hleaf argument rest
  · rename_i hsteps
    cases h
    have hlisted : ss = [] := by simpa using program_of_steps hsteps
    rw [hlisted]
    exact .nothing
  · cases h
  · rename_i top below hne hsteps
    cases h
    have hmany : 2 ≤ (top :: below).reverse.length := by
      cases below with
      | nil => exact absurd rfl hne
      | cons next below => simp
    have hlisted : ss = (top :: below).reverse.flatMap program := by
      simpa using program_of_steps hsteps
    rw [hlisted]
    simpa using Unlisted.leftover hmany

/-! ### What does not fail otherwise -/

theorem ofSteps_of_unlisted {ss : List Step} {error : ExprError} (h : Unlisted ss error) :
    ofSteps ss = .error error := by
  cases h with
  | nothing => rfl
  | @leftover es hmany =>
    have hsteps := steps_flatMap_program es [] []
    rw [List.append_nil, List.append_nil] at hsteps
    rw [← List.length_reverse] at hmany ⊢
    generalize es.reverse = stack at hsteps hmany ⊢
    rcases stack with _ | ⟨top, _ | ⟨next, below⟩⟩
    · simp at hmany
    · simp at hmany
    · rw [ofSteps, hsteps]
      rfl
  | @missing es hfew s happlies rest =>
    have hstep : step es.reverse s = .error (.missingOperand s) :=
      step_of_length_lt (by simpa using hfew) happlies
    rw [ofSteps, steps_of_step_error hstep]
  | @target es target hleaf argument rest =>
    have hstep : step (es ++ [target, argument]).reverse .call = .error (.badCallTarget target) := by
      cases target with
      | leaf text => cases hleaf
      | binary op left right => simp [step]
      | call function inner => simp [step]
    rw [ofSteps, steps_of_step_error hstep]

/-- The steps that build an expression are its program and no others; all others are rejected, for
the reason that they give. -/
theorem ofSteps_listing (ss : List Step) :
    (∀ e : Expr, ofSteps ss = .ok e ↔ ss = e.program) ∧
      ((∃ e : Expr, ss = e.program) ∨ ∃ error, ofSteps ss = .error error) ∧
      ∀ error, ofSteps ss = .error error ↔ Unlisted ss error := by
  refine ⟨fun e => ofSteps_eq_ok_iff, ?_, fun error => ⟨unlisted_of_ofSteps, ofSteps_of_unlisted⟩⟩
  cases h : ofSteps ss with
  | error error => exact .inr ⟨error, rfl⟩
  | ok e => exact .inl ⟨e, ofSteps_eq_ok_iff.mp h⟩

end DocQuery.Expr
