import DocQuery.Condition.Basic
import DocQuery.Condition.Comparison

/-! The filter of a condition list. `AND` binds tighter than `OR`; a comparison that leaves
brackets open starts a group, which is reduced on its own. -/

namespace DocQuery

inductive ReductionError where
  | inline (error : InlineError)
  /-- A comparison leaves a bracket open that does not stand at its start. -/
  | openInside (text : String)
deriving DecidableEq, Repr

namespace Condition

/-- Scans a text with the given depth of nesting and the quote that is open: the text is one pair
of brackets around everything. -/
def enclosesFrom (depth : Int) (quote : Option Char) : List Char → Bool
  | [] => depth == 0
  | c :: text =>
    match quote with
    | some q => enclosesFrom depth (if c = q then none else some q) text
    | none =>
      if Literal.isQuote c then enclosesFrom depth (some c) text
      else if c = '(' then enclosesFrom (depth + 1) none text
      else if c = ')' then
        if depth = 1 ∧ text ≠ [] then false else enclosesFrom (depth - 1) none text
      else enclosesFrom depth none text

/-- The text starts with a bracket that is closed by its last character. -/
def isWrapped (text : List Char) : Bool :=
  text.head? == some '(' && text.getLast? == some ')' && enclosesFrom 0 none text

/-- The text without the brackets that enclose all of it. -/
def stripWrapping (text : List Char) : List Char :=
  if _h : isWrapped text then stripWrapping (Text.trim (text.drop 1).dropLast) else text
termination_by text.length
decreasing_by
  have hpos : text ≠ [] := by
    rintro rfl
    simp [isWrapped] at _h
  have hlen := List.length_pos_iff.mpr hpos
  have htrim := Text.length_trim_le (text.drop 1).dropLast
  simp only [List.length_dropLast, List.length_drop] at htrim
  omega

/-- Drops `n` closing brackets, and the blanks before each, from the end. -/
def stripClosing : Nat → List Char → List Char
  | 0, text => text
  | n + 1, text => stripClosing n (Text.trimEnd (Text.stripLast ')' text))

/-- The text of a comparison that leaves no bracket open, without the brackets around it. -/
def bareText (depth : Int) (text : List Char) : List Char :=
  stripClosing (-depth).toNat (stripWrapping (Text.trim text))

def openText? (text : String) : Option (List Char) :=
  match Text.trim text.toList with
  | '(' :: inner => some inner
  | _ => none

def closeText (text : String) : String :=
  String.ofList (Text.stripLast ')' (Text.trim text.toList))

/-- The right side of an `OR`: everything up to the next `OR` outside brackets. -/
def splitOperand (depth : Int) : List Condition → List Condition × List Condition
  | [] => ([], [])
  | c :: cs =>
    if c.isConnective then
      if c.isOr && depth == 0 then ([], c :: cs)
      else
        let (operand, rest) := splitOperand depth cs
        (c :: operand, rest)
    else
      let (operand, rest) := splitOperand (depth + c.depth) cs
      (c :: operand, rest)

/-- The rest of a group that has `depth` brackets open: everything up to the comparison that closes
them, which loses its last bracket. -/
def splitGroup (depth : Int) : List Condition → List Condition × List Condition
  | [] => ([], [])
  | c :: cs =>
    let depth := depth + c.depth
    match c with
    | leaf text names =>
      if depth = 0 then ([leaf (closeText text) names], cs)
      else
        let (group, rest) := splitGroup depth cs
        (c :: group, rest)
    | connective _ =>
      let (group, rest) := splitGroup depth cs
      (c :: group, rest)

/-- What reduction makes smaller: the conditions and the characters in them. -/
def weight : List Condition → Nat
  | [] => 0
  | connective _ :: cs => weight cs + 1
  | leaf text _ :: cs => weight cs + text.toList.length + 1

theorem weight_splitOperand (depth : Int) (cs : List Condition) :
    weight (splitOperand depth cs).1 + weight (splitOperand depth cs).2 = weight cs := by
  fun_induction splitOperand depth cs with
  | case1 => rfl
  | case2 => simp [weight]
  | case3 depth c cs hc _ operand rest h ih =>
    cases c <;> simp_all [weight] <;> omega
  | case4 depth c cs hc operand rest h ih =>
    cases c <;> simp_all [weight] <;> omega

theorem length_closeText_le (text : String) :
    (closeText text).toList.length ≤ text.toList.length := by
  have h₁ := Text.length_stripLast_le ')' (Text.trim text.toList)
  have h₂ := Text.length_trim_le text.toList
  simp only [closeText, String.toList_ofList]
  omega

theorem weight_splitGroup_le (depth : Int) (cs : List Condition) :
    weight (splitGroup depth cs).1 + weight (splitGroup depth cs).2 ≤ weight cs := by
  fun_induction splitGroup depth cs with
  | case1 => simp [weight]
  | case2 depth cs text names _ h =>
    have := length_closeText_le text
    simp only [weight]
    omega
  | case3 depth cs text names _ _ group rest h ih =>
    simp_all [weight]
    omega
  | case4 depth cs word _ group rest h ih =>
    simp_all [weight]
    omega

theorem length_openText_lt {text : String} {inner : List Char} (h : openText? text = some inner) :
    inner.length < text.toList.length := by
  have ht := Text.length_trim_le text.toList
  unfold openText? at h
  split at h
  · rename_i rest heq
    rw [heq, List.length_cons] at ht
    cases h
    omega
  · cases h

/-- Reduces conditions from left to right, with the filter of those before them. A comparison that
leaves no bracket open is converted, given its names and its bare text. -/
def reduceFrom (convert : List String → List Char → Except InlineError Filter) (filter : Filter) :
    List Condition → Except ReductionError Filter
  | [] => .ok filter
  | connective word :: cs =>
    if (connective word).isOr then do
      let sub ← reduceFrom convert [] (splitOperand 0 cs).1
      reduceFrom convert (filter.or sub) (splitOperand 0 cs).2
    else reduceFrom convert filter cs
  | leaf text names :: cs =>
    if (leaf text names).depth ≤ 0 then
      match convert names (bareText (leaf text names).depth text.toList) with
      | .error e => .error (.inline e)
      | .ok fragment => reduceFrom convert (filter.and fragment) cs
    else
      match _h : openText? text with
      | none => .error (.openInside text)
      | some inner => do
        let group := splitGroup (leaf text names).depth cs
        let sub ← reduceFrom convert [] (leaf (String.ofList inner) names :: group.1)
        reduceFrom convert (filter.and sub) group.2
termination_by cs => weight cs
decreasing_by
  · have := weight_splitOperand 0 cs
    simp only [weight]
    omega
  · have := weight_splitOperand 0 cs
    simp only [weight]
    omega
  · simp only [weight]
    omega
  · simp only [weight]
    omega
  · have := weight_splitGroup_le (leaf text names).depth cs
    have := length_openText_lt _h
    simp only [weight, String.toList_ofList]
    omega
  · have := weight_splitGroup_le (leaf text names).depth cs
    simp only [weight]
    omega

def reduce (registry : Registry) (conditions : List Condition) : Except ReductionError Filter :=
  reduceFrom (Comparison.convert registry) [] conditions

end Condition

end DocQuery
