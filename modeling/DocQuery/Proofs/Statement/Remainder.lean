import DocQuery.Proofs.Statement.Items
import DocQuery.Proofs.Statement.Pieces

/-! What a reader leaves is an end of what it was given. The conditions of a statement are therefore
read from a stretch of its lexemes, right behind their keyword. -/

namespace DocQuery.Statement

variable {ls rest : List Lexeme}

theorem splitItems_suffix (depth : Nat) (ls : List Lexeme) : (splitItems depth ls).2 <:+ ls := by
  fun_induction splitItems depth ls with
  | case1 => exact List.suffix_refl []
  | case2 depth l ls _ _ runs rest hsplit ih =>
    rw [hsplit] at ih
    exact ih.trans (List.suffix_cons l ls)
  | case3 depth l ls => exact List.suffix_refl (l :: ls)
  | case4 depth l ls _ runs rest hsplit ih =>
    rw [hsplit] at ih
    exact ih.trans (List.suffix_cons l ls)

theorem readQualified_suffix (first : String) (ls : List Lexeme) :
    (readQualified first ls).2.2 <:+ ls := by
  fun_cases readQualified first ls with
  | case1 dot name ls => exact (List.suffix_cons name ls).trans (List.suffix_cons dot _)
  | case2 dot name ls => exact List.suffix_refl _
  | case3 ls => exact List.suffix_refl ls

theorem readLabel_suffix (ls : List Lexeme) : (readLabel ls).2 <:+ ls := by
  fun_cases readLabel ls with
  | case1 => exact List.suffix_refl []
  | case2 l ls => exact (List.drop_suffix 1 ls).trans (List.suffix_cons l ls)
  | case3 l ls => exact List.suffix_cons l ls
  | case4 l ls => exact List.suffix_refl _

theorem readTable_suffix {table : TableRef} (h : readTable ls = some (table, rest)) :
    rest <:+ ls := by
  cases ls with
  | nil => simp [readTable] at h
  | cons l ls =>
    cases hl : l.token.identifier? with
    | none => simp [readTable, hl] at h
    | some first =>
      simp only [readTable, hl, Option.some.injEq, Prod.mk.injEq] at h
      obtain ⟨-, rfl⟩ := h
      exact ((readLabel_suffix _).trans (readQualified_suffix first ls)).trans
        (List.suffix_cons l ls)

theorem readTables_of_none (h : readTable ls = none) : readTables ls = ([], ls) := by
  rw [readTables]
  split <;> simp_all

theorem readTables_of_nil {table : TableRef} (h : readTable ls = some (table, [])) :
    readTables ls = ([table], []) := by
  rw [readTables]
  split <;> simp_all

theorem readTables_of_cons {table : TableRef} {l : Lexeme} {rest : List Lexeme}
    (h : readTable ls = some (table, l :: rest)) :
    readTables ls = if l.token = .comma then (table :: (readTables rest).1, (readTables rest).2)
      else ([table], l :: rest) := by
  rw [readTables]
  split <;> simp_all

theorem readTable_eq_none (h : (readTables ls).1 = []) : readTable ls = none := by
  cases hread : readTable ls with
  | none => rfl
  | some first =>
    obtain ⟨table, rest⟩ := first
    cases rest with
    | nil =>
      rw [readTables_of_nil hread] at h
      cases h
    | cons l rest =>
      rw [readTables_of_cons hread] at h
      split at h <;> cases h

theorem readTables_suffix (ls : List Lexeme) : (readTables ls).2 <:+ ls := by
  fun_induction readTables ls with
  | case1 => exact List.suffix_refl _
  | case2 => exact List.nil_suffix
  | case3 ls table l rest h _ tables rest' hread ih =>
    rw [hread] at ih
    exact (ih.trans (List.suffix_cons l rest)).trans (readTable_suffix h)
  | case4 ls table l rest h => exact readTable_suffix h

theorem readRowCount_suffix {n : Nat} (h : readRowCount ls = .ok (n, rest)) : rest <:+ ls := by
  unfold readRowCount at h
  split at h
  · cases h
    exact List.drop_suffix 1 ls
  · cases h

theorem readLimit_suffix {limit : Limit} (h : readLimit ls = .ok (limit, rest)) : rest <:+ ls := by
  obtain ⟨⟨first, mid⟩, hr, h⟩ := exists_of_bind_eq_ok h
  have hmid := readRowCount_suffix hr
  dsimp only at h
  split at h
  · obtain ⟨⟨count, last⟩, hs, h⟩ := exists_of_bind_eq_ok h
    cases h
    exact ((readRowCount_suffix hs).trans (List.drop_suffix 1 mid)).trans hmid
  · split at h
    · obtain ⟨⟨offset, last⟩, hs, h⟩ := exists_of_bind_eq_ok h
      cases h
      exact ((readRowCount_suffix hs).trans (List.drop_suffix 1 mid)).trans hmid
    · cases h
      exact hmid

theorem readKeyword_suffix {keyword : String} {expected : Expectation}
    (h : readKeyword keyword expected ls = .ok rest) : rest <:+ ls := by
  unfold readKeyword at h
  split at h
  · cases h
    exact List.drop_suffix 1 ls
  · cases h

theorem readIndexNames_suffix {names : List String} (h : readIndexNames ls = .ok (names, rest)) :
    rest <:+ ls := by
  fun_induction readIndexNames ls generalizing names rest with
  | case1 => cases h
  | case2 l ls =>
    cases h
    exact List.suffix_cons l ls
  | case3 => cases h
  | case4 => cases h
  | case5 l hl name hname m ms k hm =>
    rename_i ih
    obtain ⟨⟨names', rest'⟩, hn, h⟩ := exists_of_bind_eq_ok h
    cases h
    exact ((ih hn).trans (List.suffix_cons m ms)).trans (List.suffix_cons l _)
  | case6 l hl name hname m ms k hm =>
    rename_i ih
    obtain ⟨⟨names', rest'⟩, hn, h⟩ := exists_of_bind_eq_ok h
    cases h
    exact (ih hn).trans (List.suffix_cons l _)

theorem readPurpose_suffix (h : readPurpose ls = .ok rest) : rest <:+ ls := by
  unfold readPurpose at h
  split at h
  · dsimp only at h
    split at h
    · exact ((readKeyword_suffix h).trans (List.drop_suffix 1 _)).trans (List.drop_suffix 1 ls)
    · exact (readKeyword_suffix h).trans (List.drop_suffix 1 ls)
  · cases h
    exact List.suffix_refl ls

theorem readHint_suffix {kind : HintKind} {hint : IndexHint}
    (h : readHint kind ls = .ok (hint, rest)) : rest <:+ ls := by
  unfold readHint at h
  split at h
  · cases h
  · obtain ⟨mid, hp, h⟩ := exists_of_bind_eq_ok h
    have hmid : mid <:+ ls := (readPurpose_suffix hp).trans (List.drop_suffix 1 ls)
    split at h
    · obtain ⟨⟨names, last⟩, hn, h⟩ := exists_of_bind_eq_ok h
      cases h
      exact ((readIndexNames_suffix hn).trans (List.drop_suffix 1 mid)).trans hmid
    · split at h
      · cases h
        exact (List.drop_suffix 1 mid).trans hmid
      · cases h

theorem readConditions_suffix (ls : List Lexeme) : (readConditions ls).2 <:+ ls := by
  obtain ⟨pieces, -, hls, -⟩ := readConditions_cut ls
  exact ⟨pieces.flatMap Piece.lexemes, hls.symm⟩

theorem readOrderItems_suffix (ls : List Lexeme) : (readOrderItems ls).2 <:+ ls :=
  splitItems_suffix 0 ls

/-! ### Clauses -/

/-- A clause that is read is a list of conditions right behind its keyword, or leaves the conditions
of the statement as they are. -/
theorem readClause_cases {hasTables : Bool} {l : Lexeme} {clause : Clause}
    (h : readClause hasTables l ls = .ok (clause, rest)) :
    rest <:+ ls ∧
      ((l.token.isKeyword "WHERE" = true ∧ clause = .conditions (readConditions ls).1) ∨
        (l.token.isKeyword "HAVING" = true ∧ clause = .having (readConditions ls).1) ∨
        ∀ s : Select, (s.add clause).conditions = s.conditions ∧ (s.add clause).having = s.having) := by
  unfold readClause at h
  split at h
  · rename_i hword
    cases h
    exact ⟨readConditions_suffix ls, .inl ⟨hword, rfl⟩⟩
  split at h
  · obtain ⟨mid, hk, h⟩ := exists_of_bind_eq_ok h
    cases h
    exact ⟨(readOrderItems_suffix mid).trans (readKeyword_suffix hk),
      .inr (.inr fun _ => ⟨rfl, rfl⟩)⟩
  split at h
  · rename_i hword
    cases h
    exact ⟨readConditions_suffix ls, .inr (.inl ⟨hword, rfl⟩)⟩
  split at h
  · obtain ⟨mid, hk, h⟩ := exists_of_bind_eq_ok h
    cases h
    exact ⟨(readOrderItems_suffix mid).trans (readKeyword_suffix hk),
      .inr (.inr fun _ => ⟨rfl, rfl⟩)⟩
  split at h
  · obtain ⟨⟨limit, mid⟩, hk, h⟩ := exists_of_bind_eq_ok h
    cases h
    exact ⟨readLimit_suffix hk, .inr (.inr fun _ => ⟨rfl, rfl⟩)⟩
  split at h
  · obtain ⟨⟨hint, mid⟩, hk, h⟩ := exists_of_bind_eq_ok h
    cases h
    exact ⟨readHint_suffix hk, .inr (.inr fun _ => ⟨rfl, rfl⟩)⟩
  split at h
  · cases h
    exact ⟨readTables_suffix ls, .inr (.inr fun _ => ⟨rfl, rfl⟩)⟩
  · cases h

theorem readClauses_cons (s : Select) (l : Lexeme) (ls : List Lexeme) :
    readClauses s (l :: ls) =
      if l.token = .eof ∨ l.token = .semicolon then .ok s
      else if l.token = .rparen then readClauses s ls
      else readClause (!s.tables.isEmpty) l ls >>= fun p => readClauses (s.add p.1) p.2 := by
  rw [readClauses]
  split
  · rfl
  split
  · rfl
  split
  · rename_i hclause
    rw [hclause]
    rfl
  · rename_i hclause
    rw [hclause]
    rfl

/-- The conditions are missing, or they are what is read right behind the keyword. -/
def StandsAfter (keyword : String) (conditions : List Condition) (ls : List Lexeme) : Prop :=
  conditions = [] ∨ ∃ before l rest, ls = before ++ l :: rest ∧
    l.token.isKeyword keyword = true ∧ conditions = (readConditions rest).1

theorem standsAfter_of_suffix {keyword : String} {l : Lexeme} (h : l :: rest <:+ ls)
    (hword : l.token.isKeyword keyword = true) :
    StandsAfter keyword (readConditions rest).1 ls := by
  obtain ⟨before, rfl⟩ := h
  exact .inr ⟨before, l, rest, rfl, hword, rfl⟩

def IsReadFrom (s : Select) (ls : List Lexeme) : Prop :=
  StandsAfter "WHERE" s.conditions ls ∧ StandsAfter "HAVING" s.having ls

theorem IsReadFrom.readClauses {s t : Select} {source : List Lexeme} (hs : IsReadFrom s source)
    (hls : ls <:+ source) (h : readClauses s ls = .ok t) : IsReadFrom t source := by
  fun_induction Statement.readClauses s ls with
  | case1 => cases h; exact hs
  | case2 => cases h; exact hs
  | case3 s l ls _ _ ih => exact ih hs ((List.suffix_cons l ls).trans hls) h
  | case4 => cases h
  | case5 s l ls _ _ clause rest hclause ih =>
    obtain ⟨hrest, hcases⟩ := readClause_cases hclause
    refine ih ?_ ((hrest.trans (List.suffix_cons l ls)).trans hls) h
    obtain ⟨hword, rfl⟩ | ⟨hword, rfl⟩ | hsame := hcases
    · exact ⟨standsAfter_of_suffix hls hword, hs.2⟩
    · exact ⟨hs.1, standsAfter_of_suffix hls hword⟩
    · rw [IsReadFrom, (hsame s).1, (hsame s).2]
      exact hs

theorem isReadFrom_of_readSelect {s : Select} (h : readSelect ls = .ok s) : IsReadFrom s ls := by
  have hitems := (splitItems_suffix 0 _).trans
    (List.dropWhile_suffix (l := ls) (·.token.isAnyKeyword ["DISTINCT", "ALL"]))
  have htables : ∀ ls, (if (peek ls).isKeyword "FROM" then readTables (ls.drop 1)
      else ([], ls)).2 <:+ ls := by
    intro ls
    split
    · exact (readTables_suffix _).trans (List.drop_suffix 1 ls)
    · exact List.suffix_refl ls
  exact IsReadFrom.readClauses ⟨.inl rfl, .inl rfl⟩ ((htables _).trans hitems) h

theorem IsReadFrom.mono {s : Select} {source : List Lexeme} (h : IsReadFrom s ls)
    (hls : ls <:+ source) : IsReadFrom s source := by
  obtain ⟨front, rfl⟩ := hls
  have hmono : ∀ {keyword : String} {conditions : List Condition},
      StandsAfter keyword conditions ls → StandsAfter keyword conditions (front ++ ls) := by
    intro keyword conditions hstands
    refine hstands.imp_right ?_
    rintro ⟨before, l, rest, rfl, hword, hread⟩
    exact ⟨front ++ before, l, rest, by simp, hword, hread⟩
  exact ⟨hmono h.1, hmono h.2⟩

theorem isReadFrom_of_ofSource {sql : String} {s : Select}
    (h : ofSource sql = .ok (some (.select s))) :
    ∃ ls, Lexeme.ofSource sql = .ok ls ∧ IsReadFrom s ls := by
  obtain ⟨ls, hls, hof⟩ := exists_lexemes_of_ofSource h
  obtain ⟨l, rest, hstart, hread⟩ := exists_readSelect_of_ofLexemes hof
  have hrest : rest <:+ ls := by
    have hdrop : ls.dropWhile (·.token = .semicolon) <:+ ls := List.dropWhile_suffix _
    rw [hstart] at hdrop
    exact (List.suffix_cons l rest).trans hdrop
  exact ⟨ls, hls, (isReadFrom_of_readSelect hread).mono hrest⟩

end DocQuery.Statement
