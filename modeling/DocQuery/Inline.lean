import DocQuery.Calendar.Spelling
import DocQuery.Value.Basic

/-! Inline functions: calls such as `date('2020-12-12')` in the place of a value. Each is looked up
by its exact name in a registry and builds a value from its quoted argument. -/

namespace DocQuery

/-- Builds a value from a payload, or says why it cannot. -/
abbrev Builder := String → Except String Value

/-- An inline function that refused its payload. -/
structure InlineError where
  name : String
  payload : String
  reason : String
deriving DecidableEq, Repr

def InlineError.message (e : InlineError) : String :=
  "inline function " ++ e.name ++ "('" ++ e.payload ++ "') failed: " ++ e.reason

namespace Builder

def trimmed (payload : String) : String :=
  String.ofList (Text.trim payload.toList)

/-- An instant in one of the accepted spellings. -/
def date : Builder := fun payload =>
  match Spelling.readMillis (Text.trim payload.toList) with
  | some millis => .ok (.dateTime millis)
  | none => .error ("unrecognized date '" ++ trimmed payload ++ "'")

def objectId : Builder := fun payload =>
  match ObjectId.read (trimmed payload) with
  | .ok id => .ok (.objectId id)
  | .error e => .error e.message

end Builder

/-- Builders by name, each name once. -/
structure Registry where
  entries : List (String × Builder)

namespace Registry

def empty : Registry := ⟨[]⟩

def get? (registry : Registry) (name : String) : Option Builder :=
  registry.entries.lookup name

def contains (registry : Registry) (name : String) : Bool :=
  (registry.get? name).isSome

def erase (registry : Registry) (name : String) : Registry :=
  ⟨registry.entries.filter (·.1 != name)⟩

/-- A later builder of the same name takes the place of an earlier one. -/
def insert (registry : Registry) (name : String) (builder : Builder) : Registry :=
  ⟨(registry.erase name).entries ++ [(name, builder)]⟩

/-- The names in increasing order. -/
def names (registry : Registry) : List String :=
  (registry.entries.map (·.1)).mergeSort (· ≤ ·)

def default : Registry :=
  ((empty.insert "date" .date).insert "ObjectId" .objectId).insert "Id" .objectId

/-- The value that a function builds; `none` when no function has that name. -/
def build (registry : Registry) (name payload : String) : Except InlineError (Option Value) :=
  match registry.get? name with
  | none => .ok none
  | some builder =>
    match builder payload with
    | .ok value => .ok (some value)
    | .error reason => .error ⟨name, payload, reason⟩

end Registry

end DocQuery
