import DocQuery.Arithmetic.Step

/-! The pieces of an arithmetic text: operands, operators, calls and brackets. Groups without an
operator collapse into one operand, so that `sum(cost)` is an operand by itself. -/

namespace DocQuery

inductive Piece where
  | operand (text : List Char)
  | operator (op : ArithOp)
  /-- Stands between the name of a function and its bracket. -/
  | call
  | lparen
  | rparen
deriving DecidableEq, Repr

namespace Piece

def isOperand : Piece → Bool
  | operand _ => true
  | _ => false

def isOperator : Piece → Bool
  | operator _ => true
  | _ => false

def isOperation : Piece → Bool
  | operator _ => true
  | call => true
  | _ => false

def text : Piece → List Char
  | operand text => text
  | operator op => [op.symbol]
  | call => []
  | lparen => ['(']
  | rparen => [')']

/-- Puts a character in front of the operand that comes first, or starts a new operand. -/
def consOperand (c : Char) : List Piece → List Piece
  | operand text :: pieces => operand (c :: text) :: pieces
  | pieces => operand [c] :: pieces

/-- The pieces of a text without blanks. A star alone between brackets is an operand. -/
def splitFrom (previous : Option Char) : List Char → List Piece
  | [] => []
  | c :: text =>
    let rest := splitFrom (some c) text
    if c = '(' then lparen :: rest
    else if c = ')' then rparen :: rest
    else
      match ArithOp.ofSymbol? c with
      | none => consOperand c rest
      | some op =>
        if c = '*' ∧ previous = some '(' ∧ text.head? = some ')' then consOperand c rest
        else operator op :: rest

/-- The pieces of a text; blanks do not count. -/
def split (text : List Char) : List Piece :=
  splitFrom none (Text.dropBlanks text)

/-- Marks each bracket that stands right after an operand as that of a call. -/
def markCalls (afterOperand : Bool) : List Piece → List Piece
  | [] => []
  | lparen :: pieces =>
    if afterOperand then call :: lparen :: markCalls false pieces
    else lparen :: markCalls false pieces
  | p :: pieces => p :: markCalls p.isOperand pieces

/-- Takes the pieces of the innermost open group off a stack, whose top is at the front; they come
in the order of the text. `none` when no bracket is open. -/
def takeGroup (depth : Nat) (group : List Piece) : List Piece → Option (List Piece × List Piece)
  | [] => none
  | lparen :: stack =>
    if depth = 0 then some (group, stack) else takeGroup (depth - 1) (lparen :: group) stack
  | rparen :: stack => takeGroup (depth + 1) (rparen :: group) stack
  | p :: stack => takeGroup depth (p :: group) stack

/-- Puts a closed group back: as it is when it has an operator or a call in it, as a single operand
otherwise. Brackets around nothing disappear, but a call keeps them. -/
def closeGroup (group stack : List Piece) : Except ExprError (List Piece) :=
  if group.any isOperation then .ok (rparen :: group.reverse ++ lparen :: stack)
  else
    let content := group.flatMap text
    match stack with
    | call :: operand name :: stack => .ok (operand (name ++ '(' :: content ++ [')']) :: stack)
    | call :: _ => .error (.callWithoutName (String.ofList content))
    | stack => .ok (if content.isEmpty then stack else operand content :: stack)

/-- Collapses groups from left to right; the pieces so far are on a stack. -/
def collapseFrom (stack : List Piece) : List Piece → Except ExprError (List Piece)
  | [] => .ok stack.reverse
  | rparen :: pieces =>
    match takeGroup 0 [] stack with
    | none => .error .unbalancedClose
    | some (group, stack) =>
      match closeGroup group stack with
      | .error e => .error e
      | .ok stack => collapseFrom stack pieces
  | p :: pieces => collapseFrom (p :: stack) pieces

def collapse (pieces : List Piece) : Except ExprError (List Piece) :=
  collapseFrom [] pieces

end Piece

end DocQuery
