import DocQuery.Statement.Basic
import DocQuery.Statement.Mismatch

/-! The tables of a `FROM` clause. -/

namespace DocQuery.Statement

/-- A name after a point makes the one before it a database. -/
def readQualified (first : String) : List Lexeme → String × Option String × List Lexeme
  | dot :: name :: ls =>
    match dot.token, name.token.identifier? with
    | .dot, some table => (table, some first, ls)
    | _, _ => (first, none, dot :: name :: ls)
  | ls => (first, none, ls)

/-- A second name for a table, with or without `AS`. -/
def readLabel : List Lexeme → Option String × List Lexeme
  | [] => (none, [])
  | l :: ls =>
    if l.token.isKeyword "AS" then ((peek ls).name?, ls.drop 1)
    else
      match l.token.identifier? with
      | some name => (some name, ls)
      | none => (none, l :: ls)

def readTable : List Lexeme → Option (TableRef × List Lexeme)
  | [] => none
  | l :: ls =>
    match l.token.identifier? with
    | none => none
    | some first =>
      let (table, database, ls) := readQualified first ls
      let (label, ls) := readLabel ls
      some (⟨table, database, label⟩, ls)

theorem length_readQualified_le (first : String) (ls : List Lexeme) :
    (readQualified first ls).2.2.length ≤ ls.length := by
  fun_cases readQualified first ls <;> grind

theorem length_readLabel_le (ls : List Lexeme) : (readLabel ls).2.length ≤ ls.length := by
  fun_cases readLabel ls <;> grind

theorem length_readTable_lt {ls rest : List Lexeme} {table : TableRef}
    (h : readTable ls = some (table, rest)) : rest.length < ls.length := by
  cases ls with
  | nil => simp [readTable] at h
  | cons l ls =>
    cases hl : l.token.identifier? with
    | none => simp [readTable, hl] at h
    | some first =>
      simp only [readTable, hl, Option.some.injEq, Prod.mk.injEq] at h
      have hq := length_readQualified_le first ls
      have hr := length_readLabel_le (readQualified first ls).2.2
      rw [h.2] at hr
      simp only [List.length_cons]
      omega

def readTables (ls : List Lexeme) : List TableRef × List Lexeme :=
  match _h : readTable ls with
  | none => ([], ls)
  | some (table, []) => ([table], [])
  | some (table, l :: rest) =>
    if l.token = .comma then
      let (tables, rest) := readTables rest
      (table :: tables, rest)
    else ([table], l :: rest)
termination_by ls.length
decreasing_by
  have := length_readTable_lt _h
  simp only [List.length_cons] at this
  omega

theorem length_readTables_le (ls : List Lexeme) : (readTables ls).2.length ≤ ls.length := by
  fun_induction readTables ls with
  | case1 => simp
  | case2 => simp
  | case3 ls table l rest h _ _ ih =>
    have := length_readTable_lt h
    grind
  | case4 ls table l rest h =>
    have := length_readTable_lt h
    grind

end DocQuery.Statement
