import DocQuery.Query.Plan

/-! The two commands: print the query of a source text, or only check that it has one. -/

namespace DocQuery

inductive CommandError where
  | query (error : QueryError)
  /-- Standard input is not UTF-8. -/
  | notUtf8
  | noInput
  | noCollection
deriving DecidableEq, Repr

def CommandError.message : CommandError → String
  | query error => "Translation error: " ++ error.message
  | notUtf8 => "IO error: stream did not contain valid UTF-8"
  | noInput => "No SQL provided. Pass it as an argument or pipe it to stdin."
  | noCollection => "Statement has no FROM table, nothing to translate."

inductive Command where
  /-- Prints the query as JSON, on one line or indented. -/
  | translate (pretty : Bool)
  | check
deriving DecidableEq, Repr

namespace Command

/-- The query of a source text; blanks around it do not count. -/
def queryOf (sql : String) : Except CommandError Query :=
  let text := Text.trim sql.toList
  if text.isEmpty then .error .noInput
  else
    match Query.ofSql .default (String.ofList text) with
    | .error e => .error (.query e)
    | .ok none => .error .noCollection
    | .ok (some q) => .ok q

def checkText : Query → String
  | .find q => "OK: find on '" ++ q.collection ++ "'"
  | .aggregate q =>
    "OK: aggregate on '" ++ q.collection ++ "' (" ++ toString q.pipeline.length ++ " stages)"

def run (command : Command) (sql : String) : Except CommandError String :=
  (queryOf sql).map fun q =>
    match command with
    | translate true => q.json.pretty 0
    | translate false => q.json.compact
    | check => checkText q

end Command

end DocQuery
