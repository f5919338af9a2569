import DocQuery.Aggregation.Accumulator
import DocQuery.Aggregation.ContentHash
import DocQuery.Arithmetic.Reader
import DocQuery.Statement.Basic
import DocQuery.Value.Literal

/-! Select items with functions become accumulators of a group and projections that read them
back. -/

namespace DocQuery

structure Aggregation where
  /-- Each key once, in order of first use. -/
  accumulators : List (String × Accumulator) := []
  projections : Document := []

namespace Aggregation

/-- The first accumulator of a key stays. -/
def register (key : String) (accumulator : Accumulator) (registered : List (String × Accumulator)) :
    List (String × Accumulator) :=
  if registered.any (·.1 == key) then registered else registered ++ [(key, accumulator)]

def groupFields (a : Aggregation) : Document :=
  Document.insertAll [] (a.accumulators.map fun (key, accumulator) => (key, accumulator.value))

def reference (name : String) : Value :=
  .string ("$" ++ name)

/-- An aggregate over an expression is kept under this name and the hash of the expression. -/
def temporaryKey (e : Expr) : String :=
  "__tmp_expression_" ++ e.contentHash

/-- The function of a call in a leaf: the text before its bracket. -/
def functionName (text : String) : String :=
  String.ofList (Text.trim (Text.before '(' text.toList))

/-- An expression over the fields of a document. -/
def fieldRefs : Expr → Value
  | .leaf text => (Literal.number? text.toList).getD (reference text)
  | .binary op left right => .document [(op.key, .array [fieldRefs left, fieldRefs right])]
  | .call function argument => .document [(Expr.callKey function, fieldRefs argument)]

/-- An expression over accumulators, and the accumulators with those it uses. -/
def flatten (registered : List (String × Accumulator)) :
    Expr → Except AggregationError (Value × List (String × Accumulator))
  | .leaf text =>
    match Literal.number? text.toList with
    | some number => .ok (number, registered)
    | none => do
      let accumulator ← Accumulator.ofCall (functionName text) text
      return (reference text, register text accumulator registered)
  | .binary op left right => do
    let (left, registered) ← flatten registered left
    let (right, registered) ← flatten registered right
    return (.document [(op.key, .array [left, right])], registered)
  | e@(.call function argument) =>
    match AggregateFn.ofName? function with
    | some .count => .ok (reference "count(*)", register "count(*)" .countAll registered)
    | some _ =>
      let body : Value := .document [(Expr.callKey function, fieldRefs argument)]
      .ok (reference (temporaryKey e), register (temporaryKey e) (.custom body) registered)
    | none => do
      let (argument, registered) ← flatten registered argument
      return (.document [(Expr.callKey function, argument)], registered)

/-- Adds one select item. It is projected under its label, or under its text. -/
def addItem (a : Aggregation) (item : SelectItem) : Except AggregationError Aggregation :=
  let name := item.label.getD item.expr
  match Expr.read item.expr with
  | .error e => .error (.malformed e)
  | .ok (.leaf text) => do
    let accumulator ← Accumulator.ofCall (item.function.getD (functionName text)) text
    return ⟨register item.expr accumulator a.accumulators,
      a.projections.insert name (reference item.expr)⟩
  | .ok e => do
    let (projected, accumulators) ← flatten a.accumulators e
    return ⟨accumulators, a.projections.insert name projected⟩

/-- The aggregation of select items; those without an operator come first. -/
def ofItems (items : List SelectItem) : Except AggregationError Aggregation :=
  let single := items.filter (!Expr.isComposite ·.expr)
  let composite := items.filter (Expr.isComposite ·.expr)
  (single ++ composite).foldlM addItem {}

end Aggregation

end DocQuery
