import DocQuery.Proofs.Statement.Boundary

/-! The tables behind `FROM` end at the next boundary, unless the last of them has an `AS` with nothing
behind it: then the lexeme at the boundary is taken for a label. -/

namespace DocQuery.Statement

inductive NamesTable : List Lexeme → Prop where
  | plain {name : Lexeme} (is_name : name.token.identifier?.isSome = true) : NamesTable [name]
  | qualified {database dot name : Lexeme} (is_database : database.token.identifier?.isSome = true)
    (is_dot : dot.token = .dot) (is_name : name.token.identifier?.isSome = true) :
    NamesTable [database, dot, name]

/-- A second name of a table, if it has one. Behind `AS` anything is taken for it. -/
inductive IsLabel : List Lexeme → Prop where
  | none : IsLabel []
  | bare {name : Lexeme} (is_name : name.token.identifier?.isSome = true) : IsLabel [name]
  | marked {as name : Lexeme} (is_as : as.token.isKeyword "AS" = true) : IsLabel [as, name]

/-- Tables, the last of which has an `AS` with nothing behind it. -/
inductive OpenLabel : List Lexeme → Prop where
  | last {table : List Lexeme} {as : Lexeme} (names : NamesTable table)
    (is_as : as.token.isKeyword "AS" = true) : OpenLabel (table ++ [as])
  | later {table label rest : List Lexeme} {comma : Lexeme} (names : NamesTable table)
    (is_label : IsLabel label) (is_comma : comma.token = .comma) (tail : OpenLabel rest) :
    OpenLabel (table ++ (label ++ comma :: rest))

theorem readQualified_cases {l : Lexeme} {first : String} (hl : l.token.identifier? = some first)
    (u : List Lexeme) :
    ∃ names, NamesTable (l :: names) ∧ u = names ++ (readQualified first u).2.2 := by
  fun_cases readQualified first u with
  | case1 dot name ls table hname hdot =>
    exact ⟨[dot, name], .qualified (by simp [hl]) hdot (by simp [hname]), rfl⟩
  | case2 dot name ls => exact ⟨[], .plain (by simp [hl]), rfl⟩
  | case3 => exact ⟨[], .plain (by simp [hl]), rfl⟩

theorem readQualified_of_peek_ne {ls : List Lexeme} (h : peek ls ≠ .dot) (first : String) :
    readQualified first ls = (first, none, ls) := by
  match ls with
  | [] => rfl
  | [_] => rfl
  | dot :: name :: ls =>
    have hdot : dot.token ≠ .dot := h
    simp [readQualified, hdot]

theorem readQualified_append {depth : Nat} {tail : List Lexeme} (h : Boundary depth tail)
    (first : String) (u : List Lexeme) :
    readQualified first (u ++ tail) = ((readQualified first u).1, (readQualified first u).2.1,
      (readQualified first u).2.2 ++ tail) := by
  match u, tail with
  | [], tail => exact readQualified_of_peek_ne (h.peek_ne (by simp) (by simp) rfl) first
  | [_], [] => rfl
  | [dot], l :: tail =>
    have hname : l.token.identifier? = none := h.identifier?_eq_none
    simp [readQualified, hname]
  | dot :: name :: ls, tail =>
    rw [List.cons_append, List.cons_append, readQualified, readQualified]
    split <;> rfl

theorem readLabel_cases (u : List Lexeme) :
    (∃ as, u = [as] ∧ as.token.isKeyword "AS" = true) ∨
      ∃ label, IsLabel label ∧ u = label ++ (readLabel u).2 := by
  fun_cases readLabel u with
  | case1 => exact .inr ⟨[], .none, rfl⟩
  | case2 l ls has =>
    cases ls with
    | nil => exact .inl ⟨l, rfl, has⟩
    | cons name ls => exact .inr ⟨[l, name], .marked has, rfl⟩
  | case3 l ls _ name hname => exact .inr ⟨[l], .bare (by simp [hname]), rfl⟩
  | case4 l ls => exact .inr ⟨[], .none, rfl⟩

theorem readLabel_append {depth : Nat} {tail : List Lexeme} (h : Boundary depth tail)
    {u : List Lexeme} (hu : ∀ as, u = [as] → as.token.isKeyword "AS" = false) :
    readLabel (u ++ tail) = ((readLabel u).1, (readLabel u).2 ++ tail) := by
  match u, tail with
  | [], [] => rfl
  | [], l :: tail =>
    have has : l.token.isKeyword "AS" = false := h.isKeyword_eq_false (by decide : "AS" ∉ _)
    have hname : l.token.identifier? = none := h.identifier?_eq_none
    simp [readLabel, has, hname]
  | [as], tail =>
    simp only [List.cons_append, List.nil_append, readLabel, hu as rfl]
    cases as.token.identifier? <;> rfl
  | l :: m :: ls, tail =>
    simp only [List.cons_append, readLabel]
    split
    · rfl
    · split <;> rfl

theorem readTable_cons {l : Lexeme} {first : String} (hl : l.token.identifier? = some first)
    (ls : List Lexeme) :
    readTable (l :: ls) = some
      (⟨(readQualified first ls).1, (readQualified first ls).2.1,
        (readLabel (readQualified first ls).2.2).1⟩, (readLabel (readQualified first ls).2.2).2) := by
  simp [readTable, hl]

theorem readTable_cases {u : List Lexeme} (hu : ¬ OpenLabel u) :
    (∀ depth tail, Boundary depth tail → readTable (u ++ tail) = none) ∨
      ∃ names label rest table, NamesTable names ∧ IsLabel label ∧ u = names ++ (label ++ rest) ∧
        ∀ depth tail, Boundary depth tail → readTable (u ++ tail) = some (table, rest ++ tail) := by
  cases u with
  | nil =>
    refine .inl fun depth tail h => ?_
    cases tail with
    | nil => rfl
    | cons l tail =>
      have hl : l.token.identifier? = none := h.identifier?_eq_none
      simp [readTable, hl]
  | cons l ls =>
    cases hl : l.token.identifier? with
    | none => exact .inl fun depth tail h => by simp [readTable, hl]
    | some first =>
      obtain ⟨names, hnames, hls⟩ := readQualified_cases hl ls
      have hclosed : ∀ as, (readQualified first ls).2.2 = [as] → as.token.isKeyword "AS" = false := by
        intro as has
        rw [← Bool.not_eq_true]
        intro hkeyword
        rw [has] at hls
        exact hu (hls ▸ .last hnames hkeyword)
      obtain ⟨as, has, hkeyword⟩ | ⟨label, hlabel, hrest⟩ := readLabel_cases (readQualified first ls).2.2
      · rw [hclosed as has] at hkeyword
        cases hkeyword
      · refine .inr ⟨l :: names, label, (readLabel (readQualified first ls).2.2).2,
          ⟨(readQualified first ls).1, (readQualified first ls).2.1,
            (readLabel (readQualified first ls).2.2).1⟩, hnames, hlabel, ?_, ?_⟩
        · rw [List.cons_append, ← hrest, ← hls]
        · intro depth tail h
          rw [List.cons_append, readTable_cons hl, readQualified_append h, readLabel_append h hclosed]

theorem readTables_append {depth : Nat} {u tail : List Lexeme} (h : Boundary depth tail)
    (hu : ¬ OpenLabel u) :
    readTables (u ++ tail) = ((readTables u).1, (readTables u).2 ++ tail) := by
  induction hlen : u.length using Nat.strongRecOn generalizing u with
  | ind n ih =>
    have hend : Boundary depth [] := .inl rfl
    obtain hnone | ⟨names, label, rest, table, hnames, hlabel, hsplit, hsome⟩ := readTable_cases hu
    · have halone := hnone depth [] hend
      rw [List.append_nil] at halone
      rw [readTables_of_none (hnone depth tail h), readTables_of_none halone]
    · have halone := hsome depth [] hend
      have hread := hsome depth tail h
      rw [List.append_nil, List.append_nil] at halone
      cases rest with
      | nil =>
        rw [readTables_of_nil halone]
        cases tail with
        | nil => exact readTables_of_nil hread
        | cons l tail =>
          have hl : l.token ≠ .comma := h.peek_ne (by simp) (by simp) rfl
          rw [readTables_of_cons hread, if_neg hl]
          rfl
      | cons l rest =>
        rw [List.cons_append] at hread
        rw [readTables_of_cons halone, readTables_of_cons hread]
        by_cases hl : l.token = .comma
        · have hrest : ¬ OpenLabel rest := fun hopen =>
            hu (hsplit ▸ .later hnames hlabel hl hopen)
          have hlength := congrArg List.length hsplit
          simp only [List.length_append, List.length_cons] at hlength
          rw [if_pos hl, if_pos hl, ih rest.length (by omega) hrest rfl]
        · rw [if_neg hl, if_neg hl]
          rfl

def EndsTable (rest : List Lexeme) : Prop :=
  peek rest ≠ .dot ∧ (peek rest).isKeyword "AS" = false ∧ (peek rest).identifier? = none

theorem endsTable_of_comma {l : Lexeme} (hl : l.token = .comma) (rest : List Lexeme) :
    EndsTable (l :: rest) := by
  simp [EndsTable, peek, hl, Token.isKeyword, Token.identifier?]

theorem endsTable_of_boundary {depth : Nat} {tail : List Lexeme} (h : Boundary depth tail) :
    EndsTable tail :=
  ⟨h.peek_ne (by simp) (by simp) rfl, h.isKeyword_eq_false (by decide : "AS" ∉ _),
    h.identifier?_eq_none⟩

theorem not_as_of_identifier {token : Token} (h : token.identifier?.isSome = true) :
    token.isKeyword "AS" = false := by
  rw [← Bool.not_eq_true]
  intro has
  rw [Token.identifier?_of_isKeyword has (by decide)] at h
  cases h

theorem peek_ne_dot_of_label {label rest : List Lexeme} (h : IsLabel label)
    (hrest : label = [] → EndsTable rest) : peek (label ++ rest) ≠ .dot := by
  cases h with
  | none => exact (hrest rfl).1
  | @bare name is_name =>
    intro hdot
    change name.token = .dot at hdot
    simp [hdot, Token.identifier?] at is_name
  | @marked as name is_as =>
    intro hdot
    change as.token = .dot at hdot
    simp [hdot, Token.isKeyword] at is_as

theorem exists_readLabel {label : List Lexeme} (h : IsLabel label) :
    ∃ name, ∀ rest, (label = [] → EndsTable rest) → readLabel (label ++ rest) = (name, rest) := by
  cases h with
  | none =>
    refine ⟨none, fun rest hrest => ?_⟩
    cases rest with
    | nil => rfl
    | cons l rest =>
      have has : l.token.isKeyword "AS" = false := (hrest rfl).2.1
      have hname : l.token.identifier? = none := (hrest rfl).2.2
      simp [readLabel, has, hname]
  | @bare name is_name =>
    obtain ⟨text, htext⟩ := Option.isSome_iff_exists.mp is_name
    exact ⟨some text, fun rest _ => by simp [readLabel, not_as_of_identifier is_name, htext]⟩
  | @marked as name is_as =>
    exact ⟨name.token.name?, fun rest _ => by simp [readLabel, is_as, peek]⟩

theorem exists_readTable {names label : List Lexeme} (hnames : NamesTable names)
    (hlabel : IsLabel label) :
    ∃ table, ∀ rest, (label = [] → EndsTable rest) →
      readTable (names ++ (label ++ rest)) = some (table, rest) := by
  obtain ⟨second, hsecond⟩ := exists_readLabel hlabel
  cases hnames with
  | @plain name is_name =>
    obtain ⟨first, hfirst⟩ := Option.isSome_iff_exists.mp is_name
    refine ⟨⟨first, none, second⟩, fun rest hrest => ?_⟩
    rw [List.cons_append, List.nil_append, readTable_cons hfirst,
      readQualified_of_peek_ne (peek_ne_dot_of_label hlabel hrest), hsecond rest hrest]
  | @qualified database dot name is_database is_dot is_name =>
    obtain ⟨first, hfirst⟩ := Option.isSome_iff_exists.mp is_database
    obtain ⟨table, htable⟩ := Option.isSome_iff_exists.mp is_name
    refine ⟨⟨table, some first, second⟩, fun rest hrest => ?_⟩
    have hqualified : readQualified first (dot :: name :: (label ++ rest)) =
        (table, some first, label ++ rest) := by
      simp [readQualified, is_dot, htable]
    simp only [List.cons_append, List.nil_append]
    rw [readTable_cons hfirst, hqualified, hsecond rest hrest]

theorem OpenLabel.readTables_eq {u : List Lexeme} (h : OpenLabel u) (l : Lexeme) {rest : List Lexeme}
    (hrest : peek rest ≠ .comma) : (readTables (u ++ l :: rest)).2 = rest := by
  induction h with
  | @last names as hnames is_as =>
    obtain ⟨table, htable⟩ := exists_readTable hnames (.marked is_as : IsLabel [as, l])
    have hread : readTable (names ++ [as] ++ l :: rest) = some (table, rest) := by
      rw [List.append_assoc]
      exact htable rest nofun
    cases rest with
    | nil => rw [readTables_of_nil hread]
    | cons m rest =>
      have hm : m.token ≠ .comma := hrest
      rw [readTables_of_cons hread, if_neg hm]
  | @later names label tail comma hnames is_label is_comma hopen ih =>
    obtain ⟨table, htable⟩ := exists_readTable hnames is_label
    have hread := htable (comma :: (tail ++ l :: rest)) fun _ => endsTable_of_comma is_comma _
    simp only [List.append_assoc, List.cons_append]
    rw [readTables_of_cons hread, if_pos is_comma]
    exact ih

theorem OpenLabel.identifier_peek {u : List Lexeme} (h : OpenLabel u) (rest : List Lexeme) :
    (peek (u ++ rest)).identifier?.isSome = true := by
  cases h with
  | last names => cases names <;> assumption
  | later names => cases names <;> assumption

end DocQuery.Statement
