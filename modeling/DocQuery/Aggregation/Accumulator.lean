import DocQuery.Arithmetic.Step
import DocQuery.Value.Basic

/-! Accumulators: what is gathered over the documents of a group. -/

namespace DocQuery

inductive AggregateFn where
  | sum
  | avg
  | min
  | max
  | count
deriving DecidableEq, Repr

namespace AggregateFn

/-- The function of a name in any letter case, blanks around it left out. -/
def ofName? (name : String) : Option AggregateFn :=
  [("sum", sum), ("avg", avg), ("min", min), ("max", max), ("count", count)].lookup
    (String.ofList (Text.lower (Text.trim name.toList)))

def key : AggregateFn → String
  | sum => "$sum"
  | avg => "$avg"
  | min => "$min"
  | max => "$max"
  | count => "$sum"

end AggregateFn

inductive Accumulator where
  | sum (field : String)
  | avg (field : String)
  | min (field : String)
  | max (field : String)
  | countAll
  /-- Counts the documents that have the field. -/
  | countField (field : String)
  | custom (body : Value)

inductive AggregationError where
  | unknownFunction (name : String)
  | malformed (error : ExprError)
  | noArgument (text : String)
deriving DecidableEq, Repr

namespace Accumulator

/-- A field is given with its leading `$`. -/
def ofField (function : AggregateFn) (field : String) : Accumulator :=
  match function with
  | .sum => sum field
  | .avg => avg field
  | .min => min field
  | .max => max field
  | .count => if field = "$*" then countAll else countField field

/-- One for a document that has the field, zero for others. -/
def presence (field : String) : Value :=
  .document [("$cond", .array
    [.document [("$ne", .array [.document [("$type", .string field)], .string "missing"])],
     .int 1, .int 0])]

def value : Accumulator → Value
  | sum field => .document [(AggregateFn.sum.key, .string field)]
  | avg field => .document [(AggregateFn.avg.key, .string field)]
  | min field => .document [(AggregateFn.min.key, .string field)]
  | max field => .document [(AggregateFn.max.key, .string field)]
  | countAll => .document [(AggregateFn.count.key, .int 1)]
  | countField field => .document [(AggregateFn.count.key, presence field)]
  | custom body => body

/-- The accumulator of a call such as `sum(cost)`: its field is what is left of the text without
the name of the function and the brackets. -/
def ofCall (function text : String) : Except AggregationError Accumulator :=
  match AggregateFn.ofName? function with
  | none => .error (.unknownFunction (String.ofList (Text.lower function.toList)))
  | some f =>
    let field := Text.trimOf ['(', ')', ' '] (Text.eraseFirst function.toList text.toList)
    if field.isEmpty then .error (.noArgument (String.ofList (Text.trim text.toList)))
    else .ok (ofField f (String.ofList ('$' :: field)))

end Accumulator

end DocQuery
