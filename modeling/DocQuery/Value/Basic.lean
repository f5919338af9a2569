import DocQuery.Double.Basic
import DocQuery.Value.ObjectId

/-! The typed values of a document database. -/

namespace DocQuery

inductive Value where
  | null
  | bool (value : Bool)
  /-- A 64-bit integer; it is stored in 32 bits where it fits. -/
  | int (value : Int)
  | double (value : Double)
  | string (value : String)
  /-- A regular expression that ignores case. -/
  | pattern (text : String)
  | objectId (id : ObjectId)
  /-- Milliseconds since 1970-01-01 00:00:00 UTC. -/
  | dateTime (millis : Int)
  | array (items : List Value)
  | document (fields : List (String × Value))
deriving Inhabited, Repr

/-- Fields in the order in which they were first inserted. -/
abbrev Document := List (String × Value)

namespace Document

/-- Sets a field: an existing one keeps its place, a new one goes to the end. -/
def insert (key : String) (value : Value) : Document → Document
  | [] => [(key, value)]
  | (k, v) :: fields =>
    if k = key then (k, value) :: fields else (k, v) :: insert key value fields

/-- Sets fields one after another. -/
def insertAll (doc : Document) (fields : List (String × Value)) : Document :=
  fields.foldl (fun doc (key, value) => doc.insert key value) doc

def get? (key : String) (doc : Document) : Option Value :=
  List.lookup key doc

def keys (doc : Document) : List String :=
  doc.map (·.1)

def contains (key : String) (doc : Document) : Bool :=
  doc.any (·.1 == key)

end Document

namespace Value

def fitsInt32 (n : Int) : Bool :=
  -2147483648 ≤ n && n ≤ 2147483647

def fitsInt64 (n : Int) : Bool :=
  -9223372036854775808 ≤ n && n ≤ 9223372036854775807

end Value

end DocQuery
