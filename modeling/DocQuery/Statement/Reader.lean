import DocQuery.Statement.Clauses

/-! Reading the first statement of a source text. -/

namespace DocQuery

inductive ReadError where
  | lex (error : LexError)
  | unexpected (expected : Expectation) (found : Token) (offset : Nat)
deriving DecidableEq, Repr

def ReadError.message : ReadError → String
  | lex error => error.message
  | unexpected expected found offset =>
    "Expected " ++ expected.text ++ ", got " ++ found.describe ++ " at offset " ++ toString offset

namespace Statement

/-- Leading keywords of statements that are recognised but not read. -/
def otherKinds : List String :=
  ["INSERT", "UPDATE", "DELETE", "REPLACE", "CREATE", "DROP", "ALTER", "TRUNCATE", "SHOW", "SET",
   "EXPLAIN", "DESCRIBE", "CALL", "WITH"]

/-- The first statement, after any semicolons; `none` when it does not start with the keyword of
a statement. -/
def ofLexemes (ls : List Lexeme) : Except Mismatch (Option Statement) :=
  match ls.dropWhile (·.token = .semicolon) with
  | [] => .ok none
  | l :: ls =>
    match l.token with
    | .word name =>
      let kind := String.ofList (Text.upper name.toList)
      if kind = "SELECT" then (readSelect ls).map (some <| .select ·)
      else if otherKinds.contains kind then .ok (some (.other kind))
      else .ok none
    | _ => .ok none

def ofSource (source : String) : Except ReadError (Option Statement) :=
  match Lexeme.ofSource source with
  | .error e => .error (.lex e)
  | .ok ls =>
    match ofLexemes ls with
    | .ok statement => .ok statement
    | .error (expected, rest) =>
      .error (.unexpected expected (peek rest) (source.toList.length - Lexeme.runLength rest))

end Statement

end DocQuery
