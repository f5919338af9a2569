import DocQuery.Proofs.Statement.Boundary

/-! What the readers of a statement do with its first lexeme, and which lexemes start a clause. -/

namespace DocQuery.Statement

theorem readClause_from {l : Lexeme} (hl : l.token.isKeyword "FROM" = true) (hasTables : Bool)
    (ls : List Lexeme) :
    readClause hasTables l ls = if hasTables = true then .error (.clause, l :: ls)
      else .ok (.tables (readTables ls).1, (readTables ls).2) := by
  have hother : ∀ keyword, keyword ≠ "FROM" → l.token.isKeyword keyword = false := fun _ =>
    Token.isKeyword_eq_false hl
  cases hasTables <;> simp [readClause, hintKind?, hl, hother]

theorem readClause_eq_error {l : Lexeme} (hl : l.token.isAnyKeyword Token.clauseWords = false)
    (hasTables : Bool) (ls : List Lexeme) :
    readClause hasTables l ls = .error (.clause, l :: ls) := by
  simp only [Token.isAnyKeyword, Token.clauseWords, List.any_cons, List.any_nil,
    Bool.or_eq_false_iff] at hl
  simp [readClause, hintKind?, hl]

theorem readClauses_eq_error {l : Lexeme} (hl : endsConditions 0 l.token = false) (s : Select)
    (ls : List Lexeme) : readClauses s (l :: ls) = .error (.clause, l :: ls) := by
  have hends : ¬ (l.token = .eof ∨ l.token = .semicolon) := by
    rintro (heq | heq) <;> simp [heq, endsConditions] at hl
  have hparen : l.token ≠ .rparen := by
    intro heq
    simp [heq, endsConditions] at hl
  have hword : l.token.isAnyKeyword Token.clauseWords = false := by
    rw [← Bool.not_eq_true]
    intro hword
    have hboundary := (boundary_of_word hword []).endsConditions_eq
    exact Bool.false_ne_true (hl.symm.trans hboundary)
  rw [readClauses_cons, if_neg hends, if_neg hparen, readClause_eq_error hword]
  rfl

theorem endsConditions_of_readClauses {s s' : Select} {l : Lexeme} {ls : List Lexeme}
    (h : readClauses s (l :: ls) = .ok s') : endsConditions 0 l.token = true := by
  rw [← Bool.not_eq_false]
  intro hl
  rw [readClauses_eq_error hl] at h
  cases h

theorem readClauses_of_ends {l : Lexeme} (h : l.token = .eof ∨ l.token = .semicolon) (s : Select)
    (ls : List Lexeme) : readClauses s (l :: ls) = .ok s := by
  rw [readClauses_cons, if_pos h]

theorem readClauses_of_word {l : Lexeme} (hl : l.token.isAnyKeyword Token.clauseWords = true)
    (s : Select) (ls : List Lexeme) :
    readClauses s (l :: ls) =
      readClause (!s.tables.isEmpty) l ls >>= fun p => readClauses (s.add p.1) p.2 := by
  have hends : ¬ (l.token = .eof ∨ l.token = .semicolon) := by
    rintro (heq | heq) <;> rw [heq] at hl <;> cases hl
  have hparen : l.token ≠ .rparen := by
    intro heq
    rw [heq] at hl
    cases hl
  rw [readClauses_cons, if_neg hends, if_neg hparen]

theorem readClauses_from {l : Lexeme} (hl : l.token.isKeyword "FROM" = true) (s : Select)
    (ls : List Lexeme) :
    readClauses s (l :: ls) = if s.tables = [] then
        readClauses (s.add (.tables (readTables ls).1)) (readTables ls).2
      else .error (.clause, l :: ls) := by
  have hword : l.token.isAnyKeyword Token.clauseWords = true :=
    Token.isAnyKeyword_of_isKeyword hl (by decide)
  rw [readClauses_of_word hword, readClause_from hl]
  cases s.tables <;> rfl

theorem readClauses_ne_ok {ls : List Lexeme} (h : (peek ls).identifier?.isSome = true)
    (s s' : Select) : readClauses s ls ≠ .ok s' := by
  intro hread
  cases ls with
  | nil => cases h
  | cons l ls =>
    change l.token.identifier?.isSome = true at h
    have hends := endsConditions_of_readClauses hread
    by_cases hword : l.token.isAnyKeyword Token.clauseWords = true
    · have hnone : l.token.identifier? = none := (boundary_of_word hword ls).identifier?_eq_none
      rw [hnone] at h
      cases h
    · unfold endsConditions at hends
      split at hends <;> simp_all [Token.identifier?]

theorem isAnyKeyword_of_readClause {hasTables : Bool} {l : Lexeme} {ls : List Lexeme}
    {p : Clause × List Lexeme} (h : readClause hasTables l ls = .ok p) :
    l.token.isAnyKeyword Token.clauseWords = true := by
  rw [← Bool.not_eq_false]
  intro hl
  rw [readClause_eq_error hl] at h
  cases h

theorem tables_add_of_readClause {hasTables : Bool} {l : Lexeme} {ls rest : List Lexeme}
    {clause : Clause} (hl : l.token.isKeyword "FROM" = false)
    (h : readClause hasTables l ls = .ok (clause, rest)) (s : Select) :
    (s.add clause).tables = s.tables := by
  unfold readClause at h
  split at h
  · cases h; rfl
  split at h
  · obtain ⟨mid, -, h⟩ := exists_of_bind_eq_ok h
    cases h; rfl
  split at h
  · cases h; rfl
  split at h
  · obtain ⟨mid, -, h⟩ := exists_of_bind_eq_ok h
    cases h; rfl
  split at h
  · obtain ⟨⟨limit, mid⟩, -, h⟩ := exists_of_bind_eq_ok h
    cases h; rfl
  split at h
  · obtain ⟨⟨hint, mid⟩, -, h⟩ := exists_of_bind_eq_ok h
    cases h; rfl
  · simp only [hl, Bool.false_and, Bool.false_eq_true, if_false] at h
    cases h

/-- The tables behind the select list are those of a clause like any other. -/
theorem readClauses_items (items : List SelectItem) (ls : List Lexeme) :
    readClauses { items := items } ls =
      let named := if (peek ls).isKeyword "FROM" then readTables (ls.drop 1) else ([], ls)
      readClauses { items := items, tables := named.1 } named.2 := by
  by_cases hls : (peek ls).isKeyword "FROM" = true
  · cases ls with
    | nil => cases hls
    | cons l ls =>
      rw [if_pos hls, readClauses_from hls, if_pos rfl]
      rfl
  · rw [if_neg hls]

theorem readSelect_eq (ls : List Lexeme) :
    readSelect ls =
      let selected := readSelectItems (ls.dropWhile (·.token.isAnyKeyword ["DISTINCT", "ALL"]))
      readClauses { items := selected.1 } selected.2 := by
  dsimp only
  rw [readClauses_items]
  rfl

theorem dropWhile_append_of_boundary {depth : Nat} {tail : List Lexeme} (h : Boundary depth tail)
    (u : List Lexeme) :
    (u ++ tail).dropWhile (·.token.isAnyKeyword ["DISTINCT", "ALL"]) =
      u.dropWhile (·.token.isAnyKeyword ["DISTINCT", "ALL"]) ++ tail := by
  have htail : tail.dropWhile (·.token.isAnyKeyword ["DISTINCT", "ALL"]) = tail := by
    cases tail with
    | nil => rfl
    | cons l tail =>
      have hl : l.token.isAnyKeyword ["DISTINCT", "ALL"] = false :=
        h.isAnyKeyword_eq_false (by decide)
      exact List.dropWhile_cons_of_neg (by simp [hl])
  rw [List.dropWhile_append, htail]
  split
  · rename_i hempty
    rw [List.isEmpty_iff.mp hempty, List.nil_append]
  · rfl

/-! ### Statements -/

theorem dropWhile_of_ne_semicolon {l : Lexeme} (hl : l.token ≠ .semicolon) (ls : List Lexeme) :
    (l :: ls).dropWhile (·.token = .semicolon) = l :: ls :=
  List.dropWhile_cons_of_neg (by simp [hl])

theorem ofLexemes_select_iff {l : Lexeme} (hl : l.token.isKeyword "SELECT" = true)
    {ls : List Lexeme} {statement : Statement} :
    ofLexemes (l :: ls) = .ok (some statement) ↔
      ∃ s, readSelect ls = .ok s ∧ statement = .select s := by
  have hsemicolon : l.token ≠ .semicolon := by
    intro heq
    simp [heq, Token.isKeyword] at hl
  cases htoken : l.token with
  | word name =>
    have hkind : String.ofList (Text.upper name.toList) = "SELECT" := by
      rw [htoken, Token.isKeyword, beq_iff_eq] at hl
      rw [hl, String.ofList_toList]
    simp only [ofLexemes, dropWhile_of_ne_semicolon hsemicolon, htoken, hkind, if_true]
    cases readSelect ls with
    | error e => simp [Except.map]
    | ok s => simp [Except.map, eq_comm]
  | _ => simp [htoken, Token.isKeyword] at hl

theorem ofLexemes_cases {l : Lexeme} (hl : l.token ≠ .semicolon) :
    l.token.isKeyword "SELECT" = true ∨
      (∃ kind, ∀ ls, ofLexemes (l :: ls) = .ok (some (.other kind))) ∨
      ∀ ls, ofLexemes (l :: ls) = .ok none := by
  have hdrop := dropWhile_of_ne_semicolon hl
  cases htoken : l.token with
  | word name =>
    by_cases hselect : String.ofList (Text.upper name.toList) = "SELECT"
    · exact .inl (by simp [Token.isKeyword, ← hselect])
    · by_cases hother : otherKinds.contains (String.ofList (Text.upper name.toList)) = true
      · refine .inr (.inl ⟨String.ofList (Text.upper name.toList), fun ls => ?_⟩)
        simp only [ofLexemes, hdrop, htoken, if_neg hselect, if_pos hother]
      · refine .inr (.inr fun ls => ?_)
        simp only [ofLexemes, hdrop, htoken, if_neg hselect, if_neg hother]
  | _ =>
    refine .inr (.inr fun ls => ?_)
    simp only [ofLexemes, hdrop, htoken]

end DocQuery.Statement
