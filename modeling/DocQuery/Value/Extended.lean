import DocQuery.Calendar.Moment
import DocQuery.Double.Layout
import DocQuery.Json.Basic
import DocQuery.Value.Basic

/-! Values as extended JSON. The relaxed form writes plain numbers and readable dates; the
canonical form names the type of every number. -/

namespace DocQuery

namespace Value

/-- A value that JSON lacks, as an object whose only key names its type. -/
def tagged (tag : String) (body : Json) : Json :=
  .object [(tag, body)]

def infinityText (negative : Bool) : String :=
  if negative then "-Infinity" else "Infinity"

/-- Plain numbers, except for the infinities. -/
def relaxedDouble (d : Double) : Json :=
  match Double.jsonLayout.write d with
  | some text => .number text
  | none => tagged "$numberDouble" (.string (infinityText d.isNegative))

/-- The full decimal as a string; a subnormal double is written as a plain number. -/
def canonicalDouble (d : Double) : Json :=
  if d.isSubnormal then relaxedDouble d
  else
    tagged "$numberDouble"
      (.string ((Double.typedLayout.write d).getD (infinityText d.isNegative)))

def canonicalInt (n : Int) : Json :=
  tagged (if fitsInt32 n then "$numberInt" else "$numberLong") (.string (toString n))

def millisJson (millis : Int) : Json :=
  tagged "$date" (tagged "$numberLong" (.string (toString millis)))

/-- The first millisecond of the year 10000. -/
def readableDateLimit : Int := 253402300800000

/-- A readable date from 1970 to 9999, otherwise milliseconds. -/
def relaxedDate (millis : Int) : Json :=
  if 0 ≤ millis ∧ millis < readableDateLimit then
    tagged "$date" (.string (Moment.ofMillis millis).isoText)
  else millisJson millis

def patternJson (text : String) : Json :=
  tagged "$regularExpression" (.object [("pattern", .string text), ("options", .string "i")])

mutual

def relaxed : Value → Json
  | null => .null
  | bool value => .bool value
  | int value => .ofInt value
  | double value => relaxedDouble value
  | string value => .string value
  | pattern text => patternJson text
  | objectId id => tagged "$oid" (.string id.text)
  | dateTime millis => relaxedDate millis
  | array items => .array (relaxedItems items)
  | document fields => .object (relaxedFields fields)

def relaxedItems : List Value → List Json
  | [] => []
  | item :: items => item.relaxed :: relaxedItems items

def relaxedFields : List (String × Value) → List (String × Json)
  | [] => []
  | (key, value) :: fields => (key, value.relaxed) :: relaxedFields fields

end

mutual

def canonical : Value → Json
  | null => .null
  | bool value => .bool value
  | int value => canonicalInt value
  | double value => canonicalDouble value
  | string value => .string value
  | pattern text => patternJson text
  | objectId id => tagged "$oid" (.string id.text)
  | dateTime millis => millisJson millis
  | array items => .array (canonicalItems items)
  | document fields => .object (canonicalFields fields)

def canonicalItems : List Value → List Json
  | [] => []
  | item :: items => item.canonical :: canonicalItems items

def canonicalFields : List (String × Value) → List (String × Json)
  | [] => []
  | (key, value) :: fields => (key, value.canonical) :: canonicalFields fields

end

end Value

def Document.relaxed (doc : Document) : Json :=
  .object (Value.relaxedFields doc)

def Document.canonical (doc : Document) : Json :=
  .object (Value.canonicalFields doc)

end DocQuery
