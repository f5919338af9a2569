import DocQuery.Token.Lexeme

/-! What a statement needs at a place where it has something else. -/

namespace DocQuery

/-- What a statement needs at a place where it has something else. -/
inductive Expectation where
  | byKeyword
  | joinKeyword
  | clause
  | rowCount
  | indexKeyword
  | indexName
deriving DecidableEq, Repr

def Expectation.text : Expectation → String
  | byKeyword => "by"
  | joinKeyword => "join"
  | clause => "a SELECT clause"
  | rowCount => "a non-negative integer"
  | indexKeyword => "INDEX or KEY"
  | indexName => "an index name"

namespace Statement

/-- What was expected, and the lexemes that stand there instead. -/
abbrev Mismatch := Expectation × List Lexeme

def peek : List Lexeme → Token
  | [] => .eof
  | l :: _ => l.token

theorem exists_of_bind_eq_ok {ε α β : Type} {x : Except ε α} {f : α → Except ε β} {b : β}
    (h : (x >>= f) = .ok b) : ∃ a, x = .ok a ∧ f a = .ok b := by
  cases x with
  | error e => simp [bind, Except.bind] at h
  | ok a => exact ⟨a, rfl, h⟩

end Statement

end DocQuery
