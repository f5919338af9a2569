import DocQuery.Proofs.Statement.Clauses
import DocQuery.Proofs.Statement.Locality
import DocQuery.Proofs.Statement.Tables

/-! Only the first statement of a text is read. Nothing behind its semicolon matters, unless the tables
in front of the semicolon end with an `AS`, which takes the semicolon for a label. -/

namespace DocQuery.Statement

/-- The run ends with the tables of a `FROM` outside brackets, and the last of them has an `AS` with
nothing behind it. -/
def EndsOpen (run : List Lexeme) : Prop :=
  ∃ before start tables, run = before ++ start :: tables ∧ depthAlong 0 before = 0 ∧
    start.token.isKeyword "FROM" = true ∧ OpenLabel tables

theorem EndsOpen.append {rest : List Lexeme} (h : EndsOpen rest) {used : List Lexeme}
    (hused : depthAlong 0 used = 0) : EndsOpen (used ++ rest) := by
  obtain ⟨before, start, tables, rfl, hbefore, hstart, hopen⟩ := h
  refine ⟨used ++ before, start, tables, by rw [List.append_assoc], ?_, hstart, hopen⟩
  rw [depthAlong_append, hused, hbefore]

theorem EndsOpen.cons {rest : List Lexeme} (h : EndsOpen rest) {l : Lexeme}
    (hl : depthAfter 0 l.token = 0) : EndsOpen (l :: rest) := by
  have hused : depthAlong 0 [l] = 0 := hl
  exact h.append hused

theorem not_endsOpen_nil : ¬ EndsOpen [] := by
  rintro ⟨before, start, tables, h, -⟩
  simp at h

theorem OpenLabel.exists_as {tables : List Lexeme} (h : OpenLabel tables) :
    ∃ (front : List Lexeme) (as : Lexeme),
      tables = front ++ [as] ∧ as.token.isKeyword "AS" = true := by
  induction h with
  | @last table as names is_as => exact ⟨table, as, rfl, is_as⟩
  | @later table label rest comma names is_label is_comma tail ih =>
    obtain ⟨front, as, rfl, has⟩ := ih
    exact ⟨table ++ (label ++ comma :: front), as, by simp, has⟩

theorem EndsOpen.exists_as {run : List Lexeme} (h : EndsOpen run) :
    ∃ (front : List Lexeme) (as : Lexeme),
      run = front ++ [as] ∧ as.token.isKeyword "AS" = true := by
  obtain ⟨before, start, tables, rfl, -, -, hopen⟩ := h
  obtain ⟨front, as, rfl, has⟩ := hopen.exists_as
  exact ⟨before ++ start :: front, as, by simp, has⟩

/-! ### One clause -/

/-- A clause in front of a boundary is read without looking behind it. As long as no tables are known,
what it leaves does not end with an open label either. -/
theorem readClause_append {s : Select} {l : Lexeme} {u tail r : List Lexeme} {clause : Clause}
    (hu : Unended u) (hopen : s.tables = [] → ¬ EndsOpen (l :: u))
    (htail : Quiet (depthAlong 0 u) tail)
    (h : readClause (!s.tables.isEmpty) l (u ++ tail) = .ok (clause, r)) :
    ∃ used rest, u = used ++ rest ∧ r = rest ++ tail ∧
      ((s.add clause).tables = [] → ¬ EndsOpen rest) ∧
      ∀ other, Boundary (depthAlong 0 u) other →
        readClause (!s.tables.isEmpty) l (u ++ other) = .ok (clause, rest ++ other) := by
  by_cases hl : l.token.isKeyword "FROM" = true
  · rw [readClause_from hl] at h
    split at h
    · cases h
    · rename_i hnone
      have hnil : s.tables = [] := by simpa using hnone
      have hlabel : ¬ OpenLabel u := fun hlabel => hopen hnil ⟨[], l, u, rfl, rfl, hl, hlabel⟩
      rw [readTables_append htail.1 hlabel] at h
      cases h
      obtain ⟨used, hused⟩ := readTables_suffix u
      refine ⟨used, (readTables u).2, hused.symm, rfl, ?_, ?_⟩
      · intro hempty hrest
        have hnone : readTable u = none := readTable_eq_none hempty
        rw [readTables_of_none hnone] at hrest
        exact hopen hnil (hrest.cons (depthAfter_of_isKeyword hl 0))
      · intro other hb
        rw [readClause_from hl, if_neg hnone, readTables_append hb hlabel]
  · rw [Bool.not_eq_true] at hl
    obtain ⟨used, rest, rfl, rfl, hdepth, hother⟩ := (isLocal_readClause hl).settle hu htail h
    refine ⟨used, rest, rfl, rfl, fun hnil hrest => ?_, hother⟩
    rw [tables_add_of_readClause hl h] at hnil
    have hused : depthAlong 0 (l :: used) = 0 := by
      rw [depthAlong_cons, depthAfter_of_isAnyKeyword (isAnyKeyword_of_readClause h)]
      exact hdepth fun hempty => not_endsOpen_nil (hempty ▸ hrest)
    exact hopen hnil (hrest.append hused)

/-! ### A run of clauses -/

theorem readClauses_append {s s' : Select} {u tail : List Lexeme} (hu : Unended u)
    (hopen : s.tables = [] → ¬ EndsOpen u) (htail : Quiet (depthAlong 0 u) tail)
    (h : readClauses s (u ++ tail) = .ok s') :
    ∃ s₀, ∀ other, Boundary (depthAlong 0 u) other →
      readClauses s (u ++ other) = readClauses s₀ other := by
  induction hlen : u.length using Nat.strongRecOn generalizing s u with
  | ind n ih =>
    cases u with
    | nil => exact ⟨s, fun other _ => rfl⟩
    | cons l u =>
      have hends : ¬ (l.token = .eof ∨ l.token = .semicolon) := by
        simpa using hu l List.mem_cons_self
      rw [List.length_cons] at hlen
      rw [List.cons_append, readClauses_cons, if_neg hends] at h
      by_cases hparen : l.token = .rparen
      · -- A closing bracket between clauses is skipped.
        have hdepth : depthAfter 0 l.token = 0 := by rw [hparen]; rfl
        rw [depthAlong_cons, hdepth] at htail ⊢
        rw [if_pos hparen] at h
        have hopen' : s.tables = [] → ¬ EndsOpen u := fun hnil hopenu =>
          hopen hnil (hopenu.cons hdepth)
        obtain ⟨s₀, hs₀⟩ := ih u.length (by omega) hu.tail hopen' htail h rfl
        refine ⟨s₀, fun other hb => ?_⟩
        rw [List.cons_append, readClauses_cons, if_neg hends, if_pos hparen, hs₀ other hb]
      · rw [if_neg hparen] at h
        obtain ⟨⟨clause, r⟩, hclause, hrest⟩ := exists_of_bind_eq_ok h
        have hdepth := depthAfter_of_isAnyKeyword (isAnyKeyword_of_readClause hclause) 0
        rw [depthAlong_cons, hdepth] at htail ⊢
        obtain ⟨used, rest, rfl, rfl, hopen', hother⟩ := readClause_append hu.tail hopen htail hclause
        have hle := depthAlong_le_append 0 used rest
        rw [List.length_append] at hlen
        obtain ⟨s₀, hs₀⟩ :=
          ih rest.length (by omega) hu.tail.right hopen' ⟨htail.1.mono hle, htail.2⟩ hrest rfl
        refine ⟨s₀, fun other hb => ?_⟩
        rw [List.cons_append, readClauses_cons, if_neg hends, if_neg hparen, hother other hb]
        exact hs₀ other (hb.mono hle)

/-! ### The whole statement -/

theorem readSelect_append {s : Select} {u tail : List Lexeme} (hu : Unended u)
    (hopen : ¬ EndsOpen u) (htail : Quiet (depthAlong 0 u) tail)
    (h : readSelect (u ++ tail) = .ok s) :
    ∃ s₀, ∀ other, Boundary (depthAlong 0 u) other →
      readSelect (u ++ other) = readClauses s₀ other := by
  have hwords := depthAlong_takeWhile ["DISTINCT", "ALL"] u
  have hfront : u.takeWhile (·.token.isAnyKeyword ["DISTINCT", "ALL"]) ++
      u.dropWhile (·.token.isAnyKeyword ["DISTINCT", "ALL"]) = u := List.takeWhile_append_dropWhile
  have hread : ∀ other, Boundary (depthAlong 0 u) other → readSelect (u ++ other) =
      let selected := readSelectItems (u.dropWhile (·.token.isAnyKeyword ["DISTINCT", "ALL"]) ++ other)
      readClauses { items := selected.1 } selected.2 := by
    intro other hb
    rw [readSelect_eq, dropWhile_append_of_boundary hb]
  rw [hread tail htail.1] at h
  generalize u.takeWhile (·.token.isAnyKeyword ["DISTINCT", "ALL"]) = front at hwords hfront
  generalize u.dropWhile (·.token.isAnyKeyword ["DISTINCT", "ALL"]) = body at hread hfront h
  subst hfront
  rw [depthAlong_append, hwords] at htail hread ⊢
  rcases hitems : readSelectItems (body ++ tail) with ⟨items, r⟩
  rw [hitems] at h
  obtain ⟨used, rest, rfl, rfl, hdepth, hother⟩ :=
    isLocal_readSelectItems.settle hu.right htail (by rw [hitems])
  have hle := depthAlong_le_append 0 used rest
  have hopen' : ¬ EndsOpen rest := by
    intro hrest
    have hused : depthAlong 0 used = 0 := hdepth fun hempty => not_endsOpen_nil (hempty ▸ hrest)
    exact hopen ((hrest.append hused).append hwords)
  obtain ⟨s₀, hs₀⟩ :=
    readClauses_append hu.right.right (fun _ => hopen') ⟨htail.1.mono hle, htail.2⟩ h
  refine ⟨s₀, fun other hb => ?_⟩
  have hselected : readSelectItems (used ++ rest ++ other) = (items, rest ++ other) :=
    Except.ok.inj (hother other hb)
  rw [hread other hb, hselected]
  exact hs₀ other (hb.mono hle)

/-- In a statement that can be read, a `FROM` whose last label is open is the only one with tables. The
label takes the lexeme behind it. -/
theorem exists_readSelect_of_openLabel {x tables t : List Lexeme} {start : Lexeme} {s : Select}
    (hx : Unended x) (hdepth : depthAlong 0 x = 0) (hstart : start.token.isKeyword "FROM" = true)
    (htables : OpenLabel tables) (h : readSelect (x ++ start :: (tables ++ t)) = .ok s) :
    ∀ l rest, peek rest ≠ .comma →
      ∃ s₀, readSelect (x ++ start :: (tables ++ l :: rest)) = readClauses s₀ rest := by
  induction hlen : x.length using Nat.strongRecOn generalizing x tables t start with
  | ind n ih =>
    have hfrom : ∀ ls, Quiet (depthAlong 0 x) (start :: ls) := fun ls =>
      ⟨.inr (.inr ⟨hdepth, Token.isAnyKeyword_of_isKeyword hstart (by decide)⟩),
        Token.isAnyKeyword_eq_false hstart (by decide)⟩
    have hopen : ¬ EndsOpen x := by
      -- Of two open labels the first takes the second `FROM`, and a name comes behind it.
      rintro ⟨before, start', tables', rfl, hbefore, hstart', htables'⟩
      have hname := htables.identifier_peek t
      have hpeek : peek (tables ++ t) ≠ .comma := by
        intro hcomma
        rw [hcomma] at hname
        cases hname
      have h' : readSelect (before ++ start' :: (tables' ++ start :: (tables ++ t))) = .ok s := by
        simpa using h
      rw [List.length_append, List.length_cons] at hlen
      obtain ⟨s₀, hs₀⟩ :=
        ih before.length (by omega) hx.left hbefore hstart' htables' h' rfl start _ hpeek
      exact readClauses_ne_ok hname s₀ s (hs₀.symm.trans h')
    obtain ⟨s₀, hs₀⟩ := readSelect_append hx hopen (hfrom _) h
    have hnil : s₀.tables = [] := by
      rw [hs₀ _ (hfrom _).1, readClauses_from hstart] at h
      split at h
      · assumption
      · cases h
    intro l rest hrest
    refine ⟨s₀.add (.tables (readTables (tables ++ l :: rest)).1), ?_⟩
    rw [hs₀ _ (hfrom _).1, readClauses_from hstart, if_pos hnil, htables.readTables_eq l hrest]

theorem readSelect_of_ends {u rest : List Lexeme} {last l : Lexeme} {s : Select} (hu : Unended u)
    (hopen : ¬ EndsOpen u) (hlast : last.token = .eof) (h : readSelect (u ++ [last]) = .ok s)
    (hl : l.token = .eof ∨ l.token = .semicolon) : readSelect (u ++ l :: rest) = .ok s := by
  obtain ⟨s₀, hs₀⟩ := readSelect_append hu hopen (quiet_of_ends (.inl hlast) _ []) h
  calc readSelect (u ++ l :: rest)
      = readClauses s₀ (l :: rest) := hs₀ _ (boundary_of_ends hl _ rest)
    _ = readClauses s₀ [last] := by rw [readClauses_of_ends hl, readClauses_of_ends (.inl hlast)]
    _ = readSelect (u ++ [last]) := (hs₀ _ (boundary_of_ends (.inl hlast) _ [])).symm
    _ = .ok s := h

/-- With an open label a statement can be made unreadable: the label takes the end of the statement, and
behind it an equals sign starts no clause. -/
theorem readSelect_ne_ok_of_endsOpen {u tail : List Lexeme} {s : Select} (hu : Unended u)
    (hopen : EndsOpen u) (h : readSelect (u ++ tail) = .ok s) {l sign : Lexeme}
    (hsign : sign.token = .eq) (rest : List Lexeme) (s' : Select) :
    readSelect (u ++ l :: sign :: rest) ≠ .ok s' := by
  obtain ⟨before, start, tables, rfl, hbefore, hstart, htables⟩ := hopen
  rw [List.append_assoc, List.cons_append] at h ⊢
  obtain ⟨s₀, hs₀⟩ := exists_readSelect_of_openLabel hu.left hbefore hstart htables h l
    (sign :: rest) (by simp [peek, hsign])
  rw [hs₀, readClauses_eq_error (by rw [hsign]; rfl)]
  simp

/-! ### Statements one after the other -/

theorem endsOpen_cons_iff {l : Lexeme} (hl : l.token.isKeyword "SELECT" = true) {u : List Lexeme} :
    EndsOpen (l :: u) ↔ EndsOpen u := by
  constructor
  · rintro ⟨before, start, tables, hsplit, hbefore, hstart, htables⟩
    obtain ⟨rfl, hcons⟩ | ⟨before', rfl, hcons⟩ := List.cons_eq_append_iff.mp hsplit
    · cases hcons
      have hsame := Token.isKeyword_unique hl hstart
      simp at hsame
    · rw [depthAlong_cons, depthAfter_of_isKeyword hl] at hbefore
      exact ⟨before', start, tables, hcons, hbefore, hstart, htables⟩
  · exact fun h => h.cons (depthAfter_of_isKeyword hl 0)

/-- What comes behind the semicolon of a statement does not matter, if and only if the statement is
known by its keyword only or does not end with an open label. -/
theorem ofLexemes_semicolon_iff {first : List Lexeme} {last : Lexeme} {statement : Statement}
    (hfirst : Unended first) (hlast : last.token = .eof)
    (h : ofLexemes (first ++ [last]) = .ok (some statement)) :
    (∀ semicolon rest last', semicolon.token = .semicolon → (∀ l ∈ rest, l.token ≠ .eof) →
        last'.token = .eof →
        ofLexemes (first ++ semicolon :: (rest ++ [last'])) = .ok (some statement)) ↔
      (∃ kind, statement = .other kind) ∨ ¬ EndsOpen first := by
  cases first with
  | nil => simp [ofLexemes, hlast] at h
  | cons l u =>
    have hu : Unended u := hfirst.tail
    simp only [List.cons_append] at h ⊢
    obtain hselect | ⟨kind, hof⟩ | hof := ofLexemes_cases (hfirst l List.mem_cons_self).2
    · obtain ⟨s, hread, rfl⟩ := (ofLexemes_select_iff hselect).mp h
      simp only [ofLexemes_select_iff hselect, endsOpen_cons_iff hselect]
      constructor
      · intro hall
        refine .inr fun hopen => ?_
        obtain ⟨s', hs', -⟩ :=
          hall ⟨[], [], .semicolon⟩ [⟨[], [], .eq⟩] ⟨[], [], .eof⟩ rfl (by simp) rfl
        exact readSelect_ne_ok_of_endsOpen hu hopen hread rfl _ s' hs'
      · rintro (⟨kind, hkind⟩ | hopen) semicolon rest last' hsemicolon - -
        · cases hkind
        · exact ⟨s, readSelect_of_ends hu hopen hlast hread (.inr hsemicolon), rfl⟩
    · simp only [hof] at h ⊢
      cases h
      simp
    · rw [hof] at h
      cases h

/-- A label and a string with a semicolon in the first statement. -/
theorem ofLexemes_semicolon_iff_label :
    let first : List Lexeme :=
      [⟨[], "SELECT".toList, .word "SELECT"⟩, ⟨[' '], ['a'], .word "a"⟩,
        ⟨[' '], "FROM".toList, .word "FROM"⟩, ⟨[' '], ['t'], .word "t"⟩,
        ⟨[' '], "AS".toList, .word "AS"⟩, ⟨[' '], ['x'], .word "x"⟩,
        ⟨[' '], "WHERE".toList, .word "WHERE"⟩, ⟨[' '], ['a'], .word "a"⟩, ⟨[' '], ['='], .eq⟩,
        ⟨[' '], "';'".toList, .string ";" .single⟩]
    let s : Select :=
      { items := [⟨"a", none, none⟩], tables := [⟨"t", none, some "x"⟩],
        conditions := [.leaf "a = ';'" ["a", ";"]] }
    ofLexemes (first ++ [⟨[], [], .eof⟩]) = .ok (some (.select s)) ∧
      ∀ semicolon rest last', semicolon.token = .semicolon → (∀ l ∈ rest, l.token ≠ .eof) →
        last'.token = .eof →
        ofLexemes (first ++ semicolon :: (rest ++ [last'])) = .ok (some (.select s)) := by
  intro first s
  have hs : ofLexemes (first ++ [⟨[], [], .eof⟩]) = .ok (some (.select s)) :=
    eq_ok_of_toOption (by decide +kernel)
  refine ⟨hs, (ofLexemes_semicolon_iff (by simp [Unended, first]) rfl hs).mpr (.inr fun hopen => ?_)⟩
  obtain ⟨front, as, hsplit, has⟩ := hopen.exists_as
  have hlast := congrArg List.getLast? hsplit
  simp only [first, List.getLast?_append, List.getLast?_cons_cons, List.getLast?_singleton,
    Option.some_or, Option.some.injEq] at hlast
  rw [← hlast] at has
  cases has

/-- Behind an `AS` the semicolon is taken for a label, and the next statement for a clause. -/
theorem ofSource_semicolon_label :
    let s : Select := { items := [⟨"*", none, none⟩], tables := [⟨"t", none, none⟩] }
    ofSource "SELECT * FROM t AS" = .ok (some (.select s)) ∧
      ofSource "SELECT * FROM t AS; LIMIT 5" =
        .ok (some (.select { s with limit := some ⟨0, 5⟩ })) := by
  intro s
  exact ⟨eq_ok_of_toOption (by decide +kernel), eq_ok_of_toOption (by decide +kernel)⟩

end DocQuery.Statement
