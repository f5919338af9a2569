import DocQuery.Proofs.Arithmetic.Collapse

/-! Reading a printing gives its expression back: the steps that its pieces are put into are those
that build the expression. -/

namespace DocQuery

/-- The steps that build an expression: its operands first, then what is applied to them. -/
def Expr.program : Expr → List Step
  | leaf text => [.operand text]
  | binary op left right => left.program ++ right.program ++ [.operator op]
  | call function argument => .operand function :: argument.program ++ [.call]

theorem Expr.steps_program (e : Expr) (stack : List Expr) (rest : List Step) :
    Expr.steps stack (e.program ++ rest) = Expr.steps (e :: stack) rest := by
  induction e generalizing stack rest with
  | leaf text => rfl
  | binary op left right ihl ihr => simp [program, ihl, ihr, steps, step]
  | call function argument ih => simp [program, ih, steps, step]

theorem Expr.ofSteps_program (e : Expr) : Expr.ofSteps e.program = .ok e := by
  have hsteps := e.steps_program [] []
  rw [List.append_nil] at hsteps
  simp [ofSteps, hsteps, steps]

namespace Arithmetic

/-! ### Waiting pieces -/

theorem isReady_iff {n : Nat} {p : Piece} :
    Piece.isReady n p = true ↔ p ≠ .lparen ∧ n ≤ p.priority := by
  simp [Piece.isReady]

theorem isReady_mono {n m : Nat} (h : n ≤ m) {p : Piece} (hp : Piece.isReady m p = true) :
    Piece.isReady n p = true := by
  rw [isReady_iff] at hp ⊢
  exact ⟨hp.1, by omega⟩

theorem isNotOpen_of_isReady {n : Nat} {p : Piece} (h : Piece.isReady n p = true) :
    Piece.isNotOpen p = true := by
  rw [isReady_iff] at h
  simpa [Piece.isNotOpen] using h.1

/-- The waiting pieces start with none that goes before an operation of the given priority. -/
def Stays (n : Nat) (waiting : List Piece) : Prop :=
  ∀ p ∈ waiting.head?, ¬ Piece.isReady n p = true

theorem Stays.mono {n m : Nat} {waiting : List Piece} (h : Stays n waiting) (hnm : n ≤ m) :
    Stays m waiting := by
  intro p hp hm
  exact h p hp (isReady_mono hnm hm)

theorem span_append {ready : Piece → Bool} {pending waiting : List Piece}
    (hpending : ∀ p ∈ pending, ready p = true) (hwaiting : ∀ p ∈ waiting.head?, ¬ ready p = true) :
    (pending ++ waiting).takeWhile ready = pending ∧
      (pending ++ waiting).dropWhile ready = waiting := by
  rw [List.takeWhile_append_of_pos hpending, List.dropWhile_append_of_pos hpending]
  cases waiting with
  | nil => simp
  | cons p waiting => simp [hwaiting p rfl]

theorem order_operation {p : Piece} (hp : p.isOperation = true) {pending waiting : List Piece}
    (hpending : ∀ q ∈ pending, Piece.isReady p.priority q = true)
    (hwaiting : Stays p.priority waiting) (rest : List Piece) :
    Piece.order (pending ++ waiting) (p :: rest) =
      (Piece.order (p :: waiting) rest).map (pending.filterMap Piece.step? ++ ·) := by
  obtain ⟨htake, hdrop⟩ := span_append hpending hwaiting
  cases p with
  | operator op => simp only [Piece.order, htake, hdrop]
  | call => simp only [Piece.order, htake, hdrop]
  | operand text => simp [Piece.isOperation] at hp
  | lparen => simp [Piece.isOperation] at hp
  | rparen => simp [Piece.isOperation] at hp

theorem order_close {pending : List Piece} (h : ∀ p ∈ pending, Piece.isReady 0 p = true)
    (waiting rest : List Piece) :
    Piece.order (pending ++ Piece.lparen :: waiting) (.rparen :: rest) =
      (Piece.order waiting rest).map (pending.filterMap Piece.step? ++ ·) := by
  have hnotOpen : ∀ p ∈ pending, Piece.isNotOpen p = true :=
    fun p hp => isNotOpen_of_isReady (h p hp)
  have hopen : ∀ p ∈ (Piece.lparen :: waiting).head?, ¬ Piece.isNotOpen p = true := by
    simp [Piece.isNotOpen]
  obtain ⟨htake, hdrop⟩ := span_append hnotOpen hopen
  simp only [Piece.order, htake, hdrop]

/-! ### Putting pieces in order -/

/-- The pieces make the steps of an expression: some at once, and the others when the pieces that
they leave waiting go. -/
def Orders (n : Nat) (e : Expr) (ps waiting : List Piece) : Prop :=
  ∃ (made : List Step) (pending : List Piece),
    (∀ p ∈ pending, Piece.isReady n p = true) ∧
    made ++ pending.filterMap Piece.step? = e.program ∧
    ∀ rest, Piece.order waiting (ps ++ rest) =
      (Piece.order (pending ++ waiting) rest).map (made ++ ·)

theorem map_append_map (r : Except ExprError (List Step)) (s t : List Step) :
    (r.map (t ++ ·)).map (s ++ ·) = r.map (s ++ t ++ ·) := by
  cases r <;> simp [Except.map]

theorem Orders.order_brackets {e : Expr} {ps waiting : List Piece}
    (h : Orders 0 e ps (.lparen :: waiting)) (rest : List Piece) :
    Piece.order waiting (.lparen :: (ps ++ Piece.rparen :: rest)) =
      (Piece.order waiting rest).map (e.program ++ ·) := by
  obtain ⟨made, pending, hpending, hprogram, horder⟩ := h
  have hopen : Piece.order waiting (.lparen :: (ps ++ Piece.rparen :: rest)) =
      Piece.order (.lparen :: waiting) (ps ++ Piece.rparen :: rest) := rfl
  rw [hopen, horder, order_close hpending, map_append_map, hprogram]

theorem Settled.orders {n : Nat} {e : Expr} {ps : List Piece} (h : Settled n e ps) (hn : n ≤ 3)
    {waiting : List Piece} (hwaiting : Stays n waiting) : Orders n e ps waiting := by
  have hopen (ws : List Piece) : Stays 0 (.lparen :: ws) := by
    simp [Stays, isReady_iff]
  -- An operand or a group leaves nothing waiting, a call leaves itself, and an operator leaves
  -- itself with what its right side leaves.
  induction h generalizing waiting with
  | @operand n text _ =>
    exact ⟨[.operand (String.ofList text)], [], by simp, by simp [Expr.program], fun rest => rfl⟩
  | @binary n op l r ls rs hloose _ _ ihl ihr =>
    have hpriority : op.priority + 1 ≤ 3 := by cases op <;> decide
    obtain ⟨made, pending, hpending, hprogram, hleft⟩ := ihl (by omega) (hwaiting.mono hloose)
    have hheld : Stays (op.priority + 1) (.operator op :: waiting) := by
      simp [Stays, isReady_iff, Piece.priority]
    obtain ⟨made', pending', hpending', hprogram', hright⟩ := ihr hpriority hheld
    refine ⟨made ++ pending.filterMap Piece.step? ++ made', pending' ++ [Piece.operator op], ?_,
      ?_, ?_⟩
    · intro p hp
      rcases List.mem_append.mp hp with hp | hp
      · exact isReady_mono (by omega) (hpending' p hp)
      · rw [List.mem_singleton.mp hp]
        simpa [isReady_iff, Piece.priority] using hloose
    · simp [Expr.program, ← hprogram, ← hprogram', Piece.step?]
    · intro rest
      -- All that the left side leaves waiting goes before the operator.
      have hop := order_operation (p := .operator op) rfl hpending (hwaiting.mono hloose)
        (rs ++ rest)
      rw [List.append_assoc, List.cons_append, hleft, hop, hright, map_append_map, map_append_map]
      simp
  | @call n name e ps _ _ ih =>
    refine ⟨.operand (String.ofList name) :: e.program, [.call], ?_, ?_, ?_⟩
    · simpa [isReady_iff, Piece.priority] using hn
    · simp [Expr.program, Piece.step?]
    · intro rest
      have hbrackets := (ih (by omega) (hopen (.call :: waiting))).order_brackets rest
      have hnone : ∀ p ∈ ([] : List Piece), Piece.isReady Piece.call.priority p = true := by simp
      have hcall := order_operation (p := .call) rfl hnone (hwaiting.mono hn)
        (.lparen :: (ps ++ Piece.rparen :: rest))
      have hname : Piece.order waiting
          (.operand name :: .call :: .lparen :: (ps ++ Piece.rparen :: rest)) =
          (Piece.order waiting (.call :: .lparen :: (ps ++ Piece.rparen :: rest))).map
            ([.operand (String.ofList name)] ++ ·) := rfl
      rw [List.nil_append, hbrackets, map_append_map] at hcall
      rw [hcall, map_append_map] at hname
      simpa using hname
  | @group n e ps _ _ ih =>
    refine ⟨e.program, [], by simp, by simp, fun rest => ?_⟩
    have hbrackets := (ih (by omega) (hopen waiting)).order_brackets rest
    simpa using hbrackets

theorem Settled.order_eq {e : Expr} {ps : List Piece} (h : Settled 0 e ps) :
    Piece.order [] ps = .ok e.program := by
  have hwaiting : Stays 0 [] := by simp [Stays]
  obtain ⟨made, pending, hpending, hprogram, horder⟩ := h.orders (by omega) hwaiting
  have hnotOpen : pending.all Piece.isNotOpen = true :=
    List.all_eq_true.mpr fun p hp => isNotOpen_of_isReady (hpending p hp)
  have hall := horder []
  simpa [Piece.order, hnotOpen, Except.map, hprogram] using hall

theorem Printing.read_eq {t : Term} (p : Printing 0 t) {text : String}
    (h : Text.dropBlanks text.toList = glued p.tokens) : Expr.read text = .ok t.expr := by
  obtain ⟨ps, hps, hcollapse⟩ := p.exists_collapse
  have hsteps : Step.ofText text = .ok t.expr.program := by
    rw [Step.ofText, p.split_of_dropBlanks h, hcollapse]
    exact hps.order_eq
  rw [Expr.read, hsteps]
  exact t.expr.ofSteps_program

theorem Printing.dropBlanks_spell {n : Nat} {t : Term} (p : Printing n t)
    (gap : Nat → Text.Blanks) :
    Text.dropBlanks (String.ofList (spell gap p.tokens)).toList = glued p.tokens := by
  rw [String.toList_ofList, Arithmetic.dropBlanks_spell p.not_blank]

/-- A printing is read as the expression of its term, whatever its brackets and blanks. -/
theorem read_printing (t : Term) (p : Printing 0 t) (gap : Nat → Text.Blanks) :
    Expr.read (String.ofList (spell gap p.tokens)) = .ok t.expr :=
  p.read_eq (p.dropBlanks_spell gap)

def letter (c : Char) (h : isAtomChar c = true) : Atom :=
  ⟨[c], by simp, by simpa using h⟩

/-- A product between two sums of one level, and a call with brackets that nothing needs. -/
theorem read_printing_mixed :
    Expr.read "a + b * c - f( (d - e) )" = .ok (.binary .subtract
      (.binary .add (.leaf "a") (.binary .multiply (.leaf "b") (.leaf "c")))
      (.call "f" (.binary .subtract (.leaf "d") (.leaf "e")))) := by
  have hread := read_printing _ (.binary .subtract (by decide)
    (.binary .add (by decide) (.atom (letter 'a' (by decide)))
      (.binary .multiply (by decide) (.atom (letter 'b' (by decide)))
        (.atom (letter 'c' (by decide)))))
    (.call (letter 'f' (by decide)) (.group (.binary .subtract (by decide)
      (.atom (letter 'd' (by decide))) (.atom (letter 'e' (by decide)))))))
    fun n => if n ∈ [1, 2, 3, 4, 5, 6, 8, 10, 11, 13] then ⟨[' '], by decide⟩ else .none
  exact hread

end Arithmetic

end DocQuery
