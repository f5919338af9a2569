import DocQuery.Value.Extended

/-! The plain text of a value, as it enters a search pattern. -/

namespace DocQuery.Value

def plainDouble (d : Double) : String :=
  (Double.plainLayout.write d).getD (if d.isNegative then "-inf" else "inf")

mutual

def plain : Value → String
  | null => "null"
  | bool value => if value then "true" else "false"
  | int value => toString value
  | double value => plainDouble value
  | string value => "\"" ++ value ++ "\""
  | pattern text => "/" ++ text ++ "/i"
  | objectId id => "ObjectId(\"" ++ id.text ++ "\")"
  | dateTime millis => "DateTime(\"" ++ (Moment.ofMillis millis).plainText ++ "\")"
  | array items => "[" ++ plainItems items ++ "]"
  | document fields => "\x7b" ++ plainFields fields ++ " \x7d"

def plainItems : List Value → String
  | [] => ""
  | [item] => item.plain
  | item :: items => item.plain ++ ", " ++ plainItems items

def plainFields : List (String × Value) → String
  | [] => ""
  | [(key, value)] => " \"" ++ key ++ "\": " ++ value.plain
  | (key, value) :: fields => " \"" ++ key ++ "\": " ++ value.plain ++ "," ++ plainFields fields

end

/-- The text that a value is searched for: a string stands for itself. -/
def searchText : Value → String
  | string value => value
  | value => value.plain

end DocQuery.Value
