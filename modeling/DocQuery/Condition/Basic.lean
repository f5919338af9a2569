import DocQuery.Text.Basic

/-! Conditions as a flat list: comparisons with the connectives between them. Brackets stay in the
texts of the comparisons, and each text comes with the names and strings it mentions. -/

namespace DocQuery

inductive Condition where
  /-- `AND`, `OR` or another joining word. -/
  | connective (word : String)
  /-- A comparison with the brackets around it, and the names and strings in it. -/
  | leaf (text : String) (names : List String)
deriving DecidableEq, Repr

namespace Condition

def isOr : Condition → Bool
  | connective word => Text.upper word.toList == "OR".toList
  | leaf _ _ => false

def isConnective : Condition → Bool
  | connective _ => true
  | leaf _ _ => false

def bracketBalance (text : String) : Int :=
  (text.toList.count '(' : Int) - text.toList.count ')'

/-- Opening minus closing brackets of all the names. -/
def namesBalance : List String → Int
  | [] => 0
  | name :: names => bracketBalance name + namesBalance names

/-- How many brackets a condition leaves open. Brackets inside its names and strings do
not count. -/
def depth : Condition → Int
  | connective word => bracketBalance word
  | leaf text names => bracketBalance text - namesBalance names

end Condition

end DocQuery
