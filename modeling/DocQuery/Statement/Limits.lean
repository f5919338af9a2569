import DocQuery.Statement.Basic
import DocQuery.Statement.Mismatch

/-! Row limits and index hints. -/

namespace DocQuery.Statement

/-- A number of rows: digits only, at least one of them, and at most 64 bits. -/
def rowCount? : Token → Option Nat
  | .number text =>
    let digits := text.toList
    if digits ≠ [] ∧ digits.all Char.isDigit ∧ Text.decimalValue digits < UInt64.size then
      some (Text.decimalValue digits)
    else none
  | _ => none

def readRowCount (ls : List Lexeme) : Except Mismatch (Nat × List Lexeme) :=
  match rowCount? (peek ls) with
  | some n => .ok (n, ls.drop 1)
  | none => .error (.rowCount, ls)

/-- `count`, `offset, count` or `count OFFSET offset`. -/
def readLimit (ls : List Lexeme) : Except Mismatch (Limit × List Lexeme) := do
  let (first, rest) ← readRowCount ls
  if peek rest = .comma then
    let (count, rest) ← readRowCount (rest.drop 1)
    return (⟨first, count⟩, rest)
  else if (peek rest).isKeyword "OFFSET" then
    let (offset, rest) ← readRowCount (rest.drop 1)
    return (⟨offset, first⟩, rest)
  else return (⟨0, first⟩, rest)

def readKeyword (keyword : String) (expected : Expectation) (ls : List Lexeme) :
    Except Mismatch (List Lexeme) :=
  if (peek ls).isKeyword keyword then .ok (ls.drop 1) else .error (expected, ls)

/-- The names up to a closing bracket; the commas between them are optional. -/
def readIndexNames : List Lexeme → Except Mismatch (List String × List Lexeme)
  | [] => .error (.indexName, [])
  | l :: ls =>
    if l.token = .rparen then .ok ([], ls)
    else
      match l.token.name? with
      | none => .error (.indexName, l :: ls)
      | some name =>
        match ls with
        | [] => .error (.indexName, [])
        | m :: ms => do
          let (names, rest) ←
            if m.token = .comma then readIndexNames ms else readIndexNames (m :: ms)
          return (name :: names, rest)

/-- The purpose of an index: `FOR JOIN`, `FOR ORDER BY` or `FOR GROUP BY`. -/
def readPurpose (ls : List Lexeme) : Except Mismatch (List Lexeme) :=
  if (peek ls).isKeyword "FOR" then
    let rest := ls.drop 1
    if (peek rest).isAnyKeyword ["ORDER", "GROUP"] then readKeyword "BY" .byKeyword (rest.drop 1)
    else readKeyword "JOIN" .joinKeyword rest
  else .ok ls

def readHint (kind : HintKind) (ls : List Lexeme) : Except Mismatch (IndexHint × List Lexeme) := do
  if !(peek ls).isAnyKeyword ["INDEX", "KEY"] then .error (.indexKeyword, ls)
  else
    let rest ← readPurpose (ls.drop 1)
    if peek rest = .lparen then
      let (names, rest) ← readIndexNames (rest.drop 1)
      return (⟨kind, names⟩, rest)
    else
      match (peek rest).identifier? with
      | some name => return (⟨kind, [name]⟩, rest.drop 1)
      | none => .error (.indexName, rest)

theorem length_readRowCount_le {ls rest : List Lexeme} {n : Nat}
    (h : readRowCount ls = .ok (n, rest)) : rest.length ≤ ls.length := by
  unfold readRowCount at h
  split at h <;> simp_all
  grind

theorem length_readLimit_le {ls rest : List Lexeme} {limit : Limit}
    (h : readLimit ls = .ok (limit, rest)) : rest.length ≤ ls.length := by
  obtain ⟨⟨first, mid⟩, hr, h⟩ := exists_of_bind_eq_ok h
  have hm := length_readRowCount_le hr
  dsimp only at h
  split at h
  · obtain ⟨⟨count, last⟩, hs, h⟩ := exists_of_bind_eq_ok h
    have := length_readRowCount_le hs
    simp_all [pure, Except.pure]
    omega
  · split at h
    · obtain ⟨⟨offset, last⟩, hs, h⟩ := exists_of_bind_eq_ok h
      have := length_readRowCount_le hs
      simp_all [pure, Except.pure]
      omega
    · simp_all [pure, Except.pure]

theorem length_readKeyword_le {keyword : String} {expected : Expectation} {ls rest : List Lexeme}
    (h : readKeyword keyword expected ls = .ok rest) : rest.length ≤ ls.length := by
  unfold readKeyword at h
  split at h <;> simp_all
  grind

theorem length_readIndexNames_le {ls rest : List Lexeme} {names : List String}
    (h : readIndexNames ls = .ok (names, rest)) : rest.length ≤ ls.length := by
  fun_induction readIndexNames ls generalizing names rest with
  | case1 => simp at h
  | case2 => simp_all
  | case3 => simp at h
  | case4 => simp at h
  | case5 l hl name hname m ms k hm =>
    rename_i ih
    obtain ⟨⟨names', rest'⟩, hn, h⟩ := exists_of_bind_eq_ok h
    have := ih hn
    simp_all [k, pure, Except.pure]
    omega
  | case6 l hl name hname m ms k hm =>
    rename_i ih
    obtain ⟨⟨names', rest'⟩, hn, h⟩ := exists_of_bind_eq_ok h
    have := ih hn
    simp_all [k, pure, Except.pure]
    omega

theorem length_readPurpose_le {ls rest : List Lexeme} (h : readPurpose ls = .ok rest) :
    rest.length ≤ ls.length := by
  unfold readPurpose at h
  split at h
  · dsimp only at h
    split at h
    · have := length_readKeyword_le h
      simp only [List.length_drop] at this
      omega
    · have := length_readKeyword_le h
      simp only [List.length_drop] at this
      omega
  · simp_all

theorem length_readHint_le {kind : HintKind} {ls rest : List Lexeme} {hint : IndexHint}
    (h : readHint kind ls = .ok (hint, rest)) : rest.length ≤ ls.length := by
  unfold readHint at h
  split at h
  · simp at h
  · obtain ⟨mid, hp, h⟩ := exists_of_bind_eq_ok h
    have hm := length_readPurpose_le hp
    split at h
    · obtain ⟨⟨names, last⟩, hn, h⟩ := exists_of_bind_eq_ok h
      have := length_readIndexNames_le hn
      simp_all [pure, Except.pure]
      omega
    · split at h
      · simp_all [pure, Except.pure]
        grind
      · simp at h

end DocQuery.Statement
