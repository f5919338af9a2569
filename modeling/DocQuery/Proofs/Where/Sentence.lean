import DocQuery.Proofs.Where.Leaf
import DocQuery.Query.Plan

/-! Statements that ask for all rows of a table under a condition. -/

namespace DocQuery.Where

def keyword (word : String) : Lexeme :=
  ⟨[' '], word.toList, .word word⟩

def opening (table : Name) : List Lexeme :=
  [⟨[], "SELECT".toList, .word "SELECT"⟩, ⟨[' '], ['*'], .star⟩, keyword "FROM",
    ⟨[' '], table.text, table.token⟩, keyword "WHERE"]

def ending : Lexeme :=
  ⟨[], [], .eof⟩

/-- After a blank, the text is read as these conditions. -/
inductive ReadsAs (text : List Char) (conditions : List Condition) : Prop where
  | intro (body : List Lexeme) (source_eq : Lexeme.source body = [' '] ++ text)
    (scans : Lexeme.Scans body [])
    (read_eq : Statement.readConditions (body ++ [ending]) = (conditions, [ending]))

def rowsWhere (table : Name) (condition : List Char) : String :=
  "SELECT * FROM " ++ String.ofList table.text ++ " WHERE " ++ String.ofList condition

def selectWhere (table : Name) (conditions : List Condition) : Select :=
  { items := [⟨"*", none, none⟩], tables := [⟨String.ofList table.text, none, none⟩],
    conditions := conditions }

theorem toList_rowsWhere (table : Name) {body : List Lexeme} {text : List Char}
    (h : Lexeme.source body = [' '] ++ text) :
    (rowsWhere table text).toList = Lexeme.source (opening table ++ body) ++ [] := by
  show ("SELECT * FROM " ++ String.ofList table.text ++ " WHERE " ++
    String.ofList text).toList = _
  simp only [String.toList_append, String.toList_ofList, Lexeme.source_append, h,
    List.append_nil, List.append_assoc]
  simp only [opening, keyword, Lexeme.source_cons, Lexeme.source_nil, List.append_assoc]
  rfl

theorem reads_keyword {word : String}
    (h : (word.toList.all isLetter && !word.toList.isEmpty) = true) {rest : List Char}
    (hrest : Lexeme.Stops rest) : Lexeme.Reads word.toList (.word word) rest := by
  rw [Bool.and_eq_true, List.all_eq_true] at h
  have hread := Lexeme.reads_letters (by simpa using h.2) h.1 hrest
  rwa [String.ofList_toList] at hread

theorem stops_space (text : List Char) : Lexeme.Stops (' ' :: text) := by
  intro c hc
  cases hc
  exact .inl (by decide)

theorem scans_opening (table : Name) (rest : List Char) :
    Lexeme.Scans (opening table) (' ' :: rest) := by
  have hspace : ∀ c ∈ [' '], isBlank c = true := by decide
  refine ⟨by simp, reads_keyword (by decide) (stops_space _), hspace, ?_, hspace,
    reads_keyword (by decide) (stops_space _), hspace, ?_, hspace,
    reads_keyword (by decide) (stops_space _), trivial⟩
  · exact .of_notMem (by decide) (by decide) rfl
  · exact table.reads
      ((stops_space _).not_class (fun _ => Lexeme.isBlank_of_isNameChar) (by decide))

theorem readTables_where (table : Name) (gap : List Char) (ls : List Lexeme) :
    Statement.readTables (⟨gap, table.text, table.token⟩ :: keyword "WHERE" :: ls) =
      ([⟨String.ofList table.text, none, none⟩], keyword "WHERE" :: ls) := by
  have hname : table.token.identifier? = some (String.ofList table.text) := table.mentioned
  have hqualified : Statement.readQualified (String.ofList table.text) (keyword "WHERE" :: ls) =
      (String.ofList table.text, none, keyword "WHERE" :: ls) := by
    cases ls <;> rfl
  have htable : Statement.readTable (⟨gap, table.text, table.token⟩ :: keyword "WHERE" :: ls) =
      some (⟨String.ofList table.text, none, none⟩, keyword "WHERE" :: ls) := by
    simp only [Statement.readTable, hname, hqualified]
    rfl
  rw [Statement.readTables]
  split
  all_goals
    rename_i heq
    rw [htable] at heq
    cases heq
  rfl

theorem readClauses_where (s : Select) {body : List Lexeme} {conditions : List Condition}
    (h : Statement.readConditions (body ++ [ending]) = (conditions, [ending])) :
    Statement.readClauses s (keyword "WHERE" :: (body ++ [ending])) =
      .ok { s with conditions := conditions } := by
  have hclause : Statement.readClause (!s.tables.isEmpty) (keyword "WHERE") (body ++ [ending]) =
      .ok (.conditions conditions, [ending]) := by
    rw [Statement.readClause, if_pos (by decide), h]
  rw [Statement.readClauses, if_neg (by decide), if_neg (by decide)]
  split
  · rename_i heq
    rw [hclause] at heq
    cases heq
  · rename_i heq
    rw [hclause] at heq
    cases heq
    rw [Statement.readClauses, if_pos (.inl rfl)]
    rfl

theorem readSelect_where (table : Name) {body : List Lexeme} {conditions : List Condition}
    (h : Statement.readConditions (body ++ [ending]) = (conditions, [ending])) :
    Statement.readSelect ((opening table).tail ++ (body ++ [ending])) =
      .ok (selectWhere table conditions) := by
  have hitems : Statement.readSelectItems ((opening table).tail ++ (body ++ [ending])) =
      ([⟨"*", none, none⟩], keyword "FROM" :: ⟨[' '], table.text, table.token⟩ ::
        keyword "WHERE" :: (body ++ [ending])) := rfl
  have hdrop : ((opening table).tail ++ (body ++ [ending])).dropWhile
      (·.token.isAnyKeyword ["DISTINCT", "ALL"]) = (opening table).tail ++ (body ++ [ending]) := rfl
  have hfrom : (Statement.peek (keyword "FROM" :: ⟨[' '], table.text, table.token⟩ ::
      keyword "WHERE" :: (body ++ [ending]))).isKeyword "FROM" = true := rfl
  rw [Statement.readSelect, hdrop, hitems]
  dsimp only
  rw [if_pos hfrom, List.drop_one, List.tail_cons, readTables_where]
  exact readClauses_where _ h

namespace ReadsAs

variable {text : List Char} {conditions : List Condition}

theorem unique {others : List Condition} (h : ReadsAs text conditions) (h' : ReadsAs text others) :
    conditions = others := by
  obtain ⟨body, hsource, hscans, hread⟩ := h
  obtain ⟨body', hsource', hscans', hread'⟩ := h'
  have hall := Lexeme.all_source hscans
  rw [hsource, ← hsource', Lexeme.all_source hscans', Lexeme.all_nil] at hall
  have hbody : body' ++ [ending] = body ++ [ending] := Except.ok.inj hall
  rw [hbody, hread] at hread'
  exact (Prod.mk.inj hread').1

theorem ofSource (h : ReadsAs text conditions) (table : Name) :
    Statement.ofSource (rowsWhere table text) =
      .ok (some (.select (selectWhere table conditions))) := by
  obtain ⟨body, hsource, hscans, hread⟩ := h
  have hall : Lexeme.Scans (opening table ++ body) [] := by
    refine Lexeme.scans_append ?_ hscans
    rw [hsource]
    exact scans_opening table _
  have hlex : Lexeme.ofSource (rowsWhere table text) = .ok (opening table ++ body ++ [ending]) := by
    rw [Lexeme.ofSource, toList_rowsWhere table hsource, Lexeme.all_source hall, Lexeme.all_nil]
    rfl
  have hlexemes : Statement.ofLexemes (opening table ++ body ++ [ending]) =
      (Statement.readSelect ((opening table).tail ++ (body ++ [ending]))).map
        (some <| .select ·) := by
    rw [List.append_assoc]
    rfl
  rw [readSelect_where table hread] at hlexemes
  simp only [Statement.ofSource, hlex, hlexemes]
  rfl

theorem ofSql (h : ReadsAs text conditions) (registry : Registry) (table : Name) :
    Query.ofSql registry (rowsWhere table text) =
      (Query.reduceConditions registry conditions).map fun filter =>
        some (.find ⟨String.ofList table.text, filter, none, none, 0, 0, none⟩) := by
  rw [Query.ofSql, h.ofSource]
  show (Query.reduceConditions registry conditions >>= fun _ => _) = _
  cases Query.reduceConditions registry conditions <;> rfl

end ReadsAs

end DocQuery.Where
