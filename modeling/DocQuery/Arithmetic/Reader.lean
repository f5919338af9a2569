import DocQuery.Arithmetic.Piece

/-! Reading an arithmetic expression: pieces are put in the order in which a stack applies them,
by priority and from left to right. -/

namespace DocQuery

namespace Piece

/-- A call binds tightest; brackets hold nothing. -/
def priority : Piece → Nat
  | operator op => op.priority
  | call => 3
  | _ => 0

def step? : Piece → Option Step
  | operator op => some (.operator op)
  | call => some .call
  | _ => none

/-- A waiting piece goes before a new one that binds no tighter, unless it is an open bracket. -/
def isReady (priority : Nat) (p : Piece) : Bool :=
  p != lparen && priority ≤ p.priority

def isNotOpen (p : Piece) : Bool :=
  p != lparen

/-- The steps of pieces, given those that wait with the latest in front. -/
def order (waiting : List Piece) : List Piece → Except ExprError (List Step)
  | [] =>
    if waiting.all isNotOpen then .ok (waiting.filterMap step?) else .error .unbalancedOpen
  | operand text :: pieces =>
    (order waiting pieces).map (.operand (String.ofList text) :: ·)
  | lparen :: pieces => order (lparen :: waiting) pieces
  | rparen :: pieces =>
    match waiting.dropWhile isNotOpen with
    | [] => .error .unbalancedClose
    | _ :: rest => (order rest pieces).map ((waiting.takeWhile isNotOpen).filterMap step? ++ ·)
  | p :: pieces =>
    let ready := waiting.takeWhile (isReady p.priority)
    (order (p :: waiting.dropWhile (isReady p.priority)) pieces).map (ready.filterMap step? ++ ·)

end Piece

/-- The steps of an arithmetic text. -/
def Step.ofText (text : String) : Except ExprError (List Step) := do
  Piece.order [] (← Piece.collapse (Piece.markCalls false (Piece.split text.toList)))

namespace Expr

def read (text : String) : Except ExprError Expr := do
  ofSteps (← Step.ofText text)

def isComposite (text : String) : Bool :=
  (Piece.split text.toList).any Piece.isOperator

end Expr

end DocQuery
