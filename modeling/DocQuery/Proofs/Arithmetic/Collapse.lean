import DocQuery.Proofs.Arithmetic.Infix

/-! Collapsing the groups of a printing. Where a group has no operation it becomes an operand, or
part of one, so that the brackets that stay behind are those of calls and of operations. -/

namespace DocQuery.Arithmetic

def isLeaf : Expr → Bool
  | .leaf _ => true
  | _ => false

theorem eq_leaf_of_isLeaf {e : Expr} (h : isLeaf e = true) : ∃ text, e = .leaf text := by
  cases e with
  | leaf text => exact ⟨text, rfl⟩
  | binary op l r => simp [isLeaf] at h
  | call f e => simp [isLeaf] at h

/-- The pieces of an expression after collapsing: no brackets are around a leaf. As in a printing,
the operators outside brackets have at least the given priority. -/
inductive Settled : Nat → Expr → List Piece → Prop where
  | operand {n : Nat} {text : List Char} (ne_nil : text ≠ []) :
    Settled n (.leaf (String.ofList text)) [.operand text]
  | binary {n : Nat} {op : ArithOp} {l r : Expr} {ls rs : List Piece} (loose : n ≤ op.priority)
    (left : Settled op.priority l ls) (right : Settled (op.priority + 1) r rs) :
    Settled n (.binary op l r) (ls ++ Piece.operator op :: rs)
  | call {n : Nat} {name : List Char} {e : Expr} {ps : List Piece} (compound : isLeaf e = false)
    (argument : Settled 0 e ps) :
    Settled n (.call (String.ofList name) e)
      (.operand name :: .call :: .lparen :: (ps ++ [Piece.rparen]))
  | group {n : Nat} {e : Expr} {ps : List Piece} (compound : isLeaf e = false)
    (inner : Settled 0 e ps) : Settled n e (.lparen :: (ps ++ [Piece.rparen]))

def grouped (e : Expr) (ps : List Piece) : List Piece :=
  if isLeaf e then ps else .lparen :: (ps ++ [Piece.rparen])

def called (name : List Char) (e : Expr) (ps : List Piece) : List Piece :=
  match e with
  | .leaf text => [.operand (name ++ '(' :: text.toList ++ [')'])]
  | _ => .operand name :: .call :: .lparen :: (ps ++ [Piece.rparen])

namespace Settled

variable {n : Nat} {e : Expr} {ps : List Piece}

theorem of_leaf {text : String} (h : Settled n (.leaf text) ps) :
    text.toList ≠ [] ∧ ps = [.operand text.toList] := by
  cases h with
  | operand hne => simpa using hne
  | group hcompound _ => simp [isLeaf] at hcompound

theorem any_isOperation (h : Settled n e ps) (he : isLeaf e = false) :
    ps.any Piece.isOperation = true := by
  induction h with
  | operand => simp [isLeaf] at he
  | binary => simp [Piece.isOperation]
  | call => simp [Piece.isOperation]
  | group hcompound _ ih => simpa [Piece.isOperation] using ih hcompound

theorem grouped (h : Settled 0 e ps) : Settled n e (grouped e ps) := by
  by_cases he : isLeaf e = true
  · obtain ⟨text, rfl⟩ := eq_leaf_of_isLeaf he
    obtain ⟨hne, rfl⟩ := h.of_leaf
    simpa [Arithmetic.grouped, he] using operand (n := n) hne
  · rw [Bool.not_eq_true] at he
    simpa [Arithmetic.grouped, he] using group (n := n) he h

theorem called (h : Settled 0 e ps) (name : List Char) :
    Settled n (applied name e) (called name e ps) := by
  cases e with
  | leaf text => exact operand (by simp)
  | binary op l r => exact call rfl h
  | call f e => exact call rfl h

theorem closeGroup_eq (h : Settled 0 e ps) {stack : List Piece}
    (hstack : stack.head? ≠ some .call) :
    Piece.closeGroup ps stack = .ok ((Arithmetic.grouped e ps).reverse ++ stack) := by
  by_cases he : isLeaf e = true
  · obtain ⟨text, rfl⟩ := eq_leaf_of_isLeaf he
    obtain ⟨hne, rfl⟩ := h.of_leaf
    -- The bottom of the stack is no call, so the group is not the argument of one.
    have hcontent : text.toList.isEmpty = false := by simpa using hne
    cases stack with
    | nil =>
      simp [Piece.closeGroup, Piece.isOperation, Piece.text, Arithmetic.grouped, he, hcontent]
    | cons p stack =>
      cases p <;>
        simp_all [Piece.closeGroup, Piece.isOperation, Piece.text, Arithmetic.grouped]
  · rw [Bool.not_eq_true] at he
    simp [Piece.closeGroup, h.any_isOperation he, Arithmetic.grouped, he]

theorem closeGroup_call (h : Settled 0 e ps) (name : List Char) (stack : List Piece) :
    Piece.closeGroup ps (.call :: .operand name :: stack) =
      .ok ((Arithmetic.called name e ps).reverse ++ stack) := by
  cases e with
  | leaf text =>
    obtain ⟨-, rfl⟩ := h.of_leaf
    simp [Piece.closeGroup, Piece.isOperation, Piece.text, Arithmetic.called]
  | binary op l r => simp [Piece.closeGroup, h.any_isOperation rfl, Arithmetic.called]
  | call f e => simp [Piece.closeGroup, h.any_isOperation rfl, Arithmetic.called]

/-- The brackets are balanced, so the search for an open group goes past them. -/
theorem takeGroup_eq (h : Settled n e ps) (depth : Nat) (group stack : List Piece) :
    Piece.takeGroup depth group (ps.reverse ++ stack) =
      Piece.takeGroup depth (ps ++ group) stack := by
  induction h generalizing depth group stack with
  | operand => simp [Piece.takeGroup]
  | binary _ _ _ ihl ihr => simp [Piece.takeGroup, ihl, ihr]
  | call _ _ ih => simp [Piece.takeGroup, ih]
  | group _ _ ih => simp [Piece.takeGroup, ih]

theorem collapseFrom_close (h : Settled n e ps) {stack stack' : List Piece}
    (hclose : Piece.closeGroup ps stack = .ok stack') (rest : List Piece) :
    Piece.collapseFrom (ps.reverse ++ Piece.lparen :: stack) (.rparen :: rest) =
      Piece.collapseFrom stack' rest := by
  have htake : Piece.takeGroup 0 [] (ps.reverse ++ Piece.lparen :: stack) = some (ps, stack) := by
    rw [h.takeGroup_eq]
    simp [Piece.takeGroup]
  simp [Piece.collapseFrom, htake, hclose]

end Settled

theorem markCalls_of_head {rest : List Piece} (h : rest.head? ≠ some .lparen) (b : Bool) :
    Piece.markCalls b rest = Piece.markCalls false rest := by
  cases rest with
  | nil => rfl
  | cons p rest => cases p <;> simp_all [Piece.markCalls]

/-- Where the tokens have been marked and collapsed, the pieces are on the stack, whatever stands
before and after them. -/
def CollapsesTo (tokens ps : List Piece) : Prop :=
  ∀ stack rest : List Piece, stack.head? ≠ some .call → rest.head? ≠ some .lparen →
    Piece.collapseFrom stack (Piece.markCalls false (tokens ++ rest)) =
      Piece.collapseFrom (ps.reverse ++ stack) (Piece.markCalls false rest)

namespace CollapsesTo

variable {e : Expr} {tokens ps : List Piece}

theorem operand (text : List Char) : CollapsesTo [.operand text] [.operand text] := by
  intro stack rest _ hrest
  simp [Piece.markCalls, Piece.isOperand, Piece.collapseFrom, markCalls_of_head hrest]

theorem group (h : CollapsesTo tokens ps) (hps : Settled 0 e ps) :
    CollapsesTo (.lparen :: (tokens ++ [Piece.rparen])) (grouped e ps) := by
  intro stack rest hstack _
  have hinner := h (.lparen :: stack) (.rparen :: rest) (by simp) (by simp)
  have hclose := hps.collapseFrom_close (hps.closeGroup_eq hstack) (Piece.markCalls false rest)
  simp only [Piece.markCalls, Piece.isOperand, Piece.collapseFrom] at hinner
  simpa [Piece.markCalls, Piece.collapseFrom, hinner] using hclose

theorem call (h : CollapsesTo tokens ps) (hps : Settled 0 e ps) (name : List Char) :
    CollapsesTo (.operand name :: .lparen :: (tokens ++ [Piece.rparen])) (called name e ps) := by
  intro stack rest _ _
  have hinner := h (.lparen :: .call :: .operand name :: stack) (.rparen :: rest) (by simp)
    (by simp)
  have hclose := hps.collapseFrom_close (hps.closeGroup_call name stack)
    (Piece.markCalls false rest)
  simp only [Piece.markCalls, Piece.isOperand, Piece.collapseFrom] at hinner
  simpa [Piece.markCalls, Piece.isOperand, Piece.collapseFrom, hinner] using hclose

theorem binary {op : ArithOp} {left right ls rs : List Piece} (hl : CollapsesTo left ls)
    (hr : CollapsesTo right rs) :
    CollapsesTo (left ++ Piece.operator op :: right) (ls ++ Piece.operator op :: rs) := by
  intro stack rest hstack hrest
  have hleft := hl stack (.operator op :: (right ++ rest)) hstack (by simp)
  have hright := hr (.operator op :: (ls.reverse ++ stack)) rest (by simp) hrest
  simp only [Piece.markCalls, Piece.isOperand, Piece.collapseFrom] at hleft
  simpa [hleft] using hright

end CollapsesTo

theorem Printing.exists_settled {n : Nat} {t : Term} (p : Printing n t) :
    ∃ ps, Settled n t.expr ps ∧ CollapsesTo p.tokens ps := by
  have hstar : Settled 0 (.leaf "*") [.operand ['*']] := .operand (by simp)
  induction p with
  | atom a => exact ⟨_, .operand a.ne_nil, .operand a.text⟩
  | star => exact ⟨_, hstar.grouped, (CollapsesTo.operand ['*']).group hstar⟩
  | binary op hloose left right ihl ihr =>
    obtain ⟨ls, hls, hleft⟩ := ihl
    obtain ⟨rs, hrs, hright⟩ := ihr
    rw [tightness_eq_priority] at hloose hls hrs
    exact ⟨_, .binary hloose hls hrs, hleft.binary hright⟩
  | call name argument ih =>
    obtain ⟨ps, hps, hargument⟩ := ih
    exact ⟨_, hps.called name.text, hargument.call hps name.text⟩
  | callStar name =>
    exact ⟨_, hstar.called name.text, (CollapsesTo.operand ['*']).call hstar name.text⟩
  | group p ih =>
    obtain ⟨ps, hps, hinner⟩ := ih
    exact ⟨_, hps.grouped, hinner.group hps⟩

theorem Printing.exists_collapse {t : Term} (p : Printing 0 t) :
    ∃ ps, Settled 0 t.expr ps ∧ Piece.collapse (Piece.markCalls false p.tokens) = .ok ps := by
  obtain ⟨ps, hps, hcollapses⟩ := p.exists_settled
  have hcollapse := hcollapses [] [] (by simp) (by simp)
  refine ⟨ps, hps, ?_⟩
  simpa [Piece.collapse, Piece.markCalls, Piece.collapseFrom] using hcollapse

end DocQuery.Arithmetic
