import DocQuery.Json.Basic
import DocQuery.Text.Basic
import DocQuery.Text.Quoted

/-! Arithmetic expressions over names, numbers and calls. -/

namespace DocQuery

inductive ArithOp where
  | add
  | subtract
  | multiply
  | divide
  | mod
deriving DecidableEq, Repr

namespace ArithOp

def ofSymbol? (c : Char) : Option ArithOp :=
  if c = '+' then some add
  else if c = '-' then some subtract
  else if c = '*' then some multiply
  else if c = '/' then some divide
  else if c = '%' then some mod
  else none

def symbol : ArithOp → Char
  | add => '+'
  | subtract => '-'
  | multiply => '*'
  | divide => '/'
  | mod => '%'

def key : ArithOp → String
  | add => "$add"
  | subtract => "$subtract"
  | multiply => "$multiply"
  | divide => "$divide"
  | mod => "$mod"

def priority : ArithOp → Nat
  | add => 1
  | subtract => 1
  | multiply => 2
  | divide => 2
  | mod => 2

def describe : ArithOp → String
  | add => "Add"
  | subtract => "Subtract"
  | multiply => "Multiply"
  | divide => "Divide"
  | mod => "Mod"

end ArithOp

inductive Expr where
  /-- A name, a number, or a call whose argument has no operator. -/
  | leaf (text : String)
  | binary (op : ArithOp) (left right : Expr)
  | call (function : String) (argument : Expr)
deriving DecidableEq, Repr

namespace Expr

/-- The key of a function in an aggregation expression. -/
def callKey (function : String) : String :=
  "$" ++ String.ofList (Text.lower function.toList)

def json : Expr → Json
  | leaf text => .string text
  | binary op left right => .object [(op.key, .array [left.json, right.json])]
  | call function argument => .object [(callKey function, argument.json)]

def describe : Expr → String
  | leaf text => "Leaf(" ++ Text.messageQuoted text ++ ")"
  | binary op left right =>
    "Binary \x7b op: " ++ op.describe ++ ", left: " ++ left.describe ++ ", right: "
      ++ right.describe ++ " \x7d"
  | call function argument =>
    "Call \x7b function: " ++ Text.messageQuoted function ++ ", argument: " ++ argument.describe
      ++ " \x7d"

end Expr

end DocQuery
