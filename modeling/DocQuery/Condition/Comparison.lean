import DocQuery.Condition.Mask
import DocQuery.Filter.Basic
import DocQuery.Inline
import DocQuery.Value.Plain

/-! A single comparison as a filter. Its text is split into words, of which the first is the field
and the second the operator; a text of another shape gives the empty filter. -/

namespace DocQuery

inductive Comparison where
  | eq
  | notEq
  | lt
  | ltEq
  | gt
  | gtEq
  | is
  | like
  | isIn
  | between
deriving DecidableEq, Repr

namespace Comparison

def ofWord? (word : List Char) : Option Comparison :=
  [("=", eq), ("<=>", eq), ("<>", notEq), ("!=", notEq), ("<", lt), ("<=", ltEq), (">", gt),
   (">=", gtEq), ("is", is), ("like", like), ("in", isIn), ("between", between)].lookup
    (String.ofList word)

def reversed : Comparison → Comparison
  | lt => gt
  | ltEq => gtEq
  | gt => lt
  | gtEq => ltEq
  | other => other

/-- Puts blanks around the comparators; the longest one counts. -/
def spaceComparators : List Char → List Char
  | '<' :: '=' :: '>' :: text => " <=> ".toList ++ spaceComparators text
  | '<' :: '=' :: text => " <= ".toList ++ spaceComparators text
  | '>' :: '=' :: text => " >= ".toList ++ spaceComparators text
  | '<' :: '>' :: text => " <> ".toList ++ spaceComparators text
  | '!' :: '=' :: text => " != ".toList ++ spaceComparators text
  | '<' :: text => " < ".toList ++ spaceComparators text
  | '>' :: text => " > ".toList ++ spaceComparators text
  | '=' :: text => " = ".toList ++ spaceComparators text
  | c :: text => c :: spaceComparators text
  | [] => []

/-- Splits a negation off the operator: `NOT op`, and `IS NOT` before something. -/
def splitNegation (op : List Char) (rest : List (List Char)) :
    Bool × List Char × List (List Char) :=
  match rest with
  | [] => (false, op, [])
  | next :: tail =>
    if op = "not".toList then (true, Text.lower next, tail)
    else if op = "is".toList ∧ Text.lower next = "not".toList ∧ tail ≠ [] then (true, op, tail)
    else (false, op, next :: tail)

/-- An operand that is no field: a number, a string or an inline call. -/
def isReversedOperand (operand : List Char) : Bool :=
  Literal.isNumber operand
    || (match operand with
        | c :: _ => c == Literal.singleQuote || c == Literal.doubleQuote
        | [] => false)
    || Literal.isInlineCall operand

/-- The value of an operand. An inline call takes its function and its payload from the names of
the comparison, the field left out; where the function is called like the field, the field's name
counts as the function. Anything else is a string. -/
def coerce (registry : Registry) (names : List String) (field value : List Char) :
    Except InlineError Value := do
  match Literal.scalar? value with
  | some scalar => return scalar
  | none =>
    let text : Value := .string (String.ofList value)
    if Literal.isInlineCall value then
      let callsField := (field ++ ['(']).isPrefixOf value
      match names.filter (fun name => callsField || name != String.ofList field) with
      | function :: payload :: _ => return (← registry.build function payload).getD text
      | _ => return text
    else return text

/-- An item of an `IN` list; an inline call is named by the text before its bracket. -/
def listItem (registry : Registry) (mask : Mask) (masked : List Char) :
    Except InlineError Value := do
  let (item, contents) := mask.restoreCollecting (Text.trim masked)
  match Literal.scalar? item with
  | some scalar => return scalar
  | none =>
    let arguments :=
      if contents.length = 1 ∧ Literal.isInlineCall item ∧ item.contains '(' then
        String.ofList (Text.trim (Text.before '(' item)) :: contents
      else contents
    let text : Value := .string (String.ofList item)
    match arguments with
    | function :: payload :: _ => return (← registry.build function payload).getD text
    | _ => return text

/-- The items of an `IN` list, given with its brackets and its strings masked. -/
def listItems (registry : Registry) (mask : Mask) (masked : List Char) :
    Except InlineError (List Value) :=
  let inner := Text.stripLast ')' (Text.stripFirst '(' (Text.trim masked))
  (Text.fields ',' inner).mapM (listItem registry mask)

/-- The two bounds of a `BETWEEN`; `none` when there is no `AND` between them. -/
def bounds (registry : Registry) (names : List String) (field value : List Char) :
    Except InlineError (Option (Value × Value)) :=
  let words := Text.words value
  let isAnd (word : List Char) : Bool := Text.lower word == "and".toList
  match words.dropWhile (!isAnd ·) with
  | [] => .ok none
  | _ :: after => do
    let low ← coerce registry names field (Text.unwords (words.takeWhile (!isAnd ·)))
    let high ← coerce registry names field (Text.unwords after)
    return some (low, high)

def listPredicate (negated : Bool) (items : List Value) : Predicate :=
  .operator (if negated then .notIn else .isIn) (.array items)

def boundsPredicate (negated : Bool) (low high : Value) : Predicate :=
  if negated then
    .operator .not (.document [(QueryOp.gte.key, low), (QueryOp.lte.key, high)])
  else .operators [(.gte, low), (.lte, high)]

/-- The predicate of a comparison with one value. A negation counts for `IS` and `LIKE` only. -/
def valuePredicate (comparison : Comparison) (negated : Bool) (value : Value) : Predicate :=
  match comparison with
  | lt => .operator .lt value
  | ltEq => .operator .lte value
  | gt => .operator .gt value
  | gtEq => .operator .gte value
  | notEq => .operator .ne value
  | is => if negated then .operator .ne value else .equals value
  | like =>
    if negated then .operator .not (.pattern value.searchText) else .pattern value.searchText
  | _ => .equals value

/-- The filter of a comparison that has been split into words. -/
def ofWords (registry : Registry) (names : List String) (mask : Mask) :
    List (List Char) → Except InlineError Filter
  | field :: op :: rest => do
    let (negated, op, rest) := splitNegation (Text.lower op) rest
    match ofWord? op with
    | none => return []
    | some comparison =>
      let masked := Text.unwords rest
      let left := mask.restore field
      let right := mask.restore masked
      let reverse := comparison ≠ between ∧ isReversedOperand left
      let field := Literal.unquoted (if reverse then right else left)
      let value := if reverse then left else right
      let name := String.ofList field
      match comparison with
      | isIn =>
        let items ← listItems registry mask masked
        return .ofField name (listPredicate negated items)
      | between =>
        match ← bounds registry names field value with
        | none => return []
        | some (low, high) => return .ofField name (boundsPredicate negated low high)
      | _ =>
        let comparison := if reverse then comparison.reversed else comparison
        let value ← coerce registry names field value
        return .ofField name (comparison.valuePredicate negated value)
  | _ => .ok []

/-- The filter of a comparison, given with the names and strings in it. -/
def convert (registry : Registry) (names : List String) (text : List Char) :
    Except InlineError Filter :=
  let (mask, masked) := Mask.protect names text
  ofWords registry names mask (Text.words (spaceComparators masked))

end Comparison

end DocQuery
