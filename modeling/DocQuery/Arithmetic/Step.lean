import DocQuery.Arithmetic.Expr

/-! The steps that build an expression on a stack: operands come first, then what is applied
to them. -/

namespace DocQuery

inductive Step where
  | operand (text : String)
  | operator (op : ArithOp)
  /-- Applies the name below the top of the stack to the top. -/
  | call
deriving DecidableEq, Repr

def Step.text : Step → String
  | operand text => text
  | operator op => String.ofList [op.symbol]
  | call => "@call"

inductive ExprError where
  | unbalancedClose
  | unbalancedOpen
  | callWithoutName (argument : String)
  | missingOperand (step : Step)
  | badCallTarget (target : Expr)
  | empty
  | leftover (count : Nat)
deriving DecidableEq, Repr

def ExprError.message : ExprError → String
  | unbalancedClose => "unbalanced ')'"
  | unbalancedOpen => "unbalanced '('"
  | callWithoutName argument => "call without a name before (" ++ argument ++ ")"
  | missingOperand step => "missing operand for '" ++ step.text ++ "'"
  | badCallTarget target => "call target is not a name: " ++ target.describe
  | empty => "empty expression"
  | leftover count => toString count ++ " operand(s) left without an operator"

namespace Expr

/-- One step on a stack, whose top is at the front. -/
def step (stack : List Expr) (s : Step) : Except ExprError (List Expr) :=
  match s, stack with
  | .operand text, stack => .ok (leaf text :: stack)
  | .operator op, right :: left :: stack => .ok (binary op left right :: stack)
  | .call, argument :: leaf function :: stack => .ok (call function argument :: stack)
  | .call, _ :: target :: _ => .error (.badCallTarget target)
  | s, _ => .error (.missingOperand s)

def steps (stack : List Expr) : List Step → Except ExprError (List Expr)
  | [] => .ok stack
  | s :: rest =>
    match step stack s with
    | .error e => .error e
    | .ok stack => steps stack rest

/-- The expression that the steps leave alone on the stack. -/
def ofSteps (program : List Step) : Except ExprError Expr :=
  match steps [] program with
  | .error e => .error e
  | .ok [] => .error .empty
  | .ok [e] => .ok e
  | .ok (_ :: rest) => .error (.leftover rest.length)

end Expr

end DocQuery
