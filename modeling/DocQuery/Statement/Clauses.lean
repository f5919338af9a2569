import DocQuery.Statement.ConditionList
import DocQuery.Statement.Limits
import DocQuery.Statement.Tables

/-! The clauses of a SELECT statement, in any order. -/

namespace DocQuery

namespace Statement

inductive Clause where
  | tables (tables : List TableRef)
  | conditions (conditions : List Condition)
  | groups (groups : List String)
  | having (conditions : List Condition)
  | orders (orders : List OrderItem)
  | limit (limit : Limit)
  | hint (hint : IndexHint)

end Statement

/-- A later clause of the same kind replaces an earlier one, but hints are collected. -/
def Select.add (s : Select) : Statement.Clause → Select
  | .tables tables => { s with tables := tables }
  | .conditions conditions => { s with conditions := conditions }
  | .groups groups => { s with groups := groups }
  | .having conditions => { s with having := conditions }
  | .orders orders => { s with orders := orders }
  | .limit limit => { s with limit := some limit }
  | .hint hint => { s with hints := s.hints ++ [hint] }

namespace Statement

def hintKind? (token : Token) : Option HintKind :=
  if token.isKeyword "USE" then some .use
  else if token.isKeyword "FORCE" then some .force
  else if token.isKeyword "IGNORE" then some .ignore
  else none

/-- The clause that `l` starts. Tables may be named here only if none are known yet. -/
def readClause (hasTables : Bool) (l : Lexeme) (ls : List Lexeme) :
    Except Mismatch (Clause × List Lexeme) :=
  if l.token.isKeyword "WHERE" then
    let (conditions, rest) := readConditions ls
    .ok (.conditions conditions, rest)
  else if l.token.isKeyword "GROUP" then do
    let (items, rest) := readOrderItems (← readKeyword "BY" .byKeyword ls)
    return (.groups (items.map (·.expr)), rest)
  else if l.token.isKeyword "HAVING" then
    let (conditions, rest) := readConditions ls
    .ok (.having conditions, rest)
  else if l.token.isKeyword "ORDER" then do
    let (items, rest) := readOrderItems (← readKeyword "BY" .byKeyword ls)
    return (.orders items, rest)
  else if l.token.isKeyword "LIMIT" then do
    let (limit, rest) ← readLimit ls
    return (.limit limit, rest)
  else
    match hintKind? l.token with
    | some kind => do
      let (hint, rest) ← readHint kind ls
      return (.hint hint, rest)
    | none =>
      if l.token.isKeyword "FROM" && !hasTables then
        let (tables, rest) := readTables ls
        .ok (.tables tables, rest)
      else .error (.clause, l :: ls)

theorem length_readClause_le {hasTables : Bool} {l : Lexeme} {ls rest : List Lexeme}
    {clause : Clause} (h : readClause hasTables l ls = .ok (clause, rest)) :
    rest.length ≤ ls.length := by
  unfold readClause at h
  split at h
  · have := length_readConditions_le ls
    simp_all
  split at h
  · obtain ⟨mid, hk, h⟩ := exists_of_bind_eq_ok h
    have := length_readKeyword_le hk
    have := length_readOrderItems_le mid
    simp_all [pure, Except.pure]
    omega
  split at h
  · have := length_readConditions_le ls
    simp_all
  split at h
  · obtain ⟨mid, hk, h⟩ := exists_of_bind_eq_ok h
    have := length_readKeyword_le hk
    have := length_readOrderItems_le mid
    simp_all [pure, Except.pure]
    omega
  split at h
  · obtain ⟨⟨limit, mid⟩, hk, h⟩ := exists_of_bind_eq_ok h
    have := length_readLimit_le hk
    simp_all [pure, Except.pure]
  split at h
  · obtain ⟨⟨hint, mid⟩, hk, h⟩ := exists_of_bind_eq_ok h
    have := length_readHint_le hk
    simp_all [pure, Except.pure]
  split at h
  · have := length_readTables_le ls
    simp_all
  · simp at h

/-- Reads clauses up to the end of the statement. Closing brackets between clauses are skipped. -/
def readClauses (s : Select) : List Lexeme → Except Mismatch Select
  | [] => .ok s
  | l :: ls =>
    if l.token = .eof ∨ l.token = .semicolon then .ok s
    else if l.token = .rparen then readClauses s ls
    else
      match _h : readClause (!s.tables.isEmpty) l ls with
      | .error mismatch => .error mismatch
      | .ok (clause, rest) => readClauses (s.add clause) rest
termination_by ls => ls.length
decreasing_by
  · simp
  · have := length_readClause_le _h
    simp only [List.length_cons]
    omega

/-- A SELECT statement after its first keyword. -/
def readSelect (ls : List Lexeme) : Except Mismatch Select :=
  let ls := ls.dropWhile (·.token.isAnyKeyword ["DISTINCT", "ALL"])
  let (items, ls) := readSelectItems ls
  let (tables, ls) := if (peek ls).isKeyword "FROM" then readTables (ls.drop 1) else ([], ls)
  readClauses { items := items, tables := tables } ls

end Statement

end DocQuery
