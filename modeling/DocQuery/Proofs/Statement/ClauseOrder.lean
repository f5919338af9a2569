import DocQuery.Proofs.Statement.Clauses
import DocQuery.Proofs.Statement.Locality
import DocQuery.Proofs.Statement.Tables
import Mathlib.Data.List.Nodup

/-! The clauses behind the tables of a statement may come in any order. A clause with closed brackets is
read up to the keyword of the next one, wherever it stands, and clauses of different kinds set different
parts of the statement. -/

namespace DocQuery.Statement

inductive ClauseKind where
  | tables
  | conditions
  | groups
  | having
  | orders
  | limit
  | hint
deriving DecidableEq, Repr

def Clause.kind : Clause → ClauseKind
  | .tables _ => .tables
  | .conditions _ => .conditions
  | .groups _ => .groups
  | .having _ => .having
  | .orders _ => .orders
  | .limit _ => .limit
  | .hint _ => .hint

theorem add_comm {c d : Clause} (h : c.kind ≠ d.kind) (s : Select) :
    (s.add c).add d = (s.add d).add c := by
  cases c <;> cases d <;> simp_all [Clause.kind, Select.add]

/-! ### Closed runs -/

/-- Every bracket has a partner, and outside brackets no clause starts. -/
structure Closed (run : List Lexeme) : Prop where
  unended : Unended run
  balanced : nesting run = 0
  opened : ∀ i : Fin run.length, 0 ≤ nesting (run.take i)
  outside : ∀ i : Fin run.length, nesting (run.take i) = 0 →
    run[i].token.isAnyKeyword Token.clauseWords = false

namespace Closed

variable {run read unread used rest : List Lexeme}

theorem nonneg (h : Closed run) (hsplit : run = read ++ unread) : 0 ≤ nesting read := by
  cases unread with
  | nil =>
    rw [List.append_nil] at hsplit
    exact Int.le_of_eq (hsplit ▸ h.balanced).symm
  | cons l unread =>
    have hread := h.opened ⟨read.length, by simp [hsplit]⟩
    simpa [hsplit] using hread

theorem depthAlong_eq (h : Closed run) (hsplit : run = read ++ unread) :
    (depthAlong 0 read : Int) = nesting read := by
  have hdepth : (depthAlong 0 read : Int) = (0 : Nat) + nesting read := by
    refine depthAlong_eq_nesting fun first second hread => ?_
    have hrun : run = first ++ (second ++ unread) := by rw [hsplit, hread, List.append_assoc]
    have hfirst := h.nonneg hrun
    omega
  omega

theorem depthAlong_eq_zero (h : Closed run) : depthAlong 0 run = 0 := by
  have hdepth := h.depthAlong_eq (List.append_nil run).symm
  rw [h.balanced] at hdepth
  exact_mod_cast hdepth

theorem eq_nil (h : Closed (used ++ rest)) (hused : depthAlong 0 used = 0)
    (hrest : ∀ l ∈ rest.head?, endsConditions 0 l.token = true) : rest = [] := by
  cases rest with
  | nil => rfl
  | cons l rest =>
    exfalso
    have hl := hrest l rfl
    have hunended := h.unended l (by simp)
    have hnesting : nesting used = 0 := by
      have hdepth := h.depthAlong_eq rfl
      omega
    by_cases hparen : l.token = .rparen
    · have hnonneg := h.nonneg (List.append_cons used l rest)
      have hl : nesting [l] = -1 := by simp [nesting, hparen]
      rw [nesting_append] at hnonneg
      omega
    · have hword := h.outside ⟨used.length, by simp⟩ (by simpa using hnesting)
      simp only [Fin.getElem_fin, List.getElem_append_right, Nat.le_refl, Nat.sub_self,
        List.getElem_cons_zero] at hword
      unfold endsConditions at hl
      split at hl <;> simp_all

end Closed

/-! ### Blocks -/

inductive IsPurpose : List Lexeme → Prop where
  | none : IsPurpose []
  | join {mark word : Lexeme} (is_for : mark.token.isKeyword "FOR" = true)
    (is_join : word.token.isKeyword "JOIN" = true) : IsPurpose [mark, word]
  | sorting {mark word second : Lexeme} (is_for : mark.token.isKeyword "FOR" = true)
    (is_word : word.token.isAnyKeyword ["ORDER", "GROUP"] = true)
    (is_by : second.token.isKeyword "BY" = true) : IsPurpose [mark, word, second]

inductive Opens : ClauseKind → Lexeme → List Lexeme → Prop where
  | conditions {l : Lexeme} (is_where : l.token.isKeyword "WHERE" = true) : Opens .conditions l []
  | groups {l second : Lexeme} (is_group : l.token.isKeyword "GROUP" = true)
    (is_by : second.token.isKeyword "BY" = true) : Opens .groups l [second]
  | having {l : Lexeme} (is_having : l.token.isKeyword "HAVING" = true) : Opens .having l []
  | orders {l second : Lexeme} (is_order : l.token.isKeyword "ORDER" = true)
    (is_by : second.token.isKeyword "BY" = true) : Opens .orders l [second]
  | limit {l : Lexeme} (is_limit : l.token.isKeyword "LIMIT" = true) : Opens .limit l []
  | hint {l second : Lexeme} {purpose : List Lexeme}
    (is_kind : l.token.isAnyKeyword ["USE", "FORCE", "IGNORE"] = true)
    (is_index : second.token.isAnyKeyword ["INDEX", "KEY"] = true)
    (is_purpose : IsPurpose purpose) : Opens .hint l (second :: purpose)

/-- The lexemes of a clause: its keywords, and a closed run behind them. -/
structure Block where
  kind : ClauseKind
  first : Lexeme
  words : List Lexeme
  body : List Lexeme
  opens : Opens kind first words
  closed : Closed body

def Block.lexemes (b : Block) : List Lexeme :=
  b.first :: (b.words ++ b.body)

/-- The reader reads the clause behind its keywords. -/
structure ReadsBody (kind : ClauseKind) (l : Lexeme) (words : List Lexeme)
    (read : List Lexeme → Except Mismatch (Clause × List Lexeme)) : Prop where
  isLocal : IsLocal 0 read
  kind_eq : ∀ {ls clause rest}, read ls = .ok (clause, rest) → clause.kind = kind
  readClause_eq : ∀ hasTables ls, readClause hasTables l (words ++ ls) = read ls

theorem IsPurpose.exists_reader {purpose : List Lexeme} (h : IsPurpose purpose) (kind : HintKind) :
    ∃ read, IsLocal 0 read ∧
      ∀ ls, (advance readPurpose (purpose ++ ls) >>= fun p => readIndexes kind p.2) = read ls := by
  cases h with
  | none =>
    exact ⟨fun ls => advance readPurpose ls >>= fun p => readIndexes kind p.2,
      isLocal_readPurpose.bind fun _ => isLocal_readIndexes kind, fun ls => rfl⟩
  | @join mark word is_for is_join =>
    have hother := Token.isAnyKeyword_eq_false is_join (by decide : "JOIN" ∉ ["ORDER", "GROUP"])
    refine ⟨readIndexes kind, isLocal_readIndexes kind, fun ls => ?_⟩
    have hpurpose : advance readPurpose ([mark, word] ++ ls) = .ok ((), ls) := by
      simp [advance, readPurpose, readKeyword, peek, is_for, is_join, hother, Except.map]
    rw [hpurpose]
    rfl
  | @sorting mark word second is_for is_word is_by =>
    refine ⟨readIndexes kind, isLocal_readIndexes kind, fun ls => ?_⟩
    have hpurpose : advance readPurpose ([mark, word, second] ++ ls) = .ok ((), ls) := by
      simp [advance, readPurpose, readKeyword, peek, is_for, is_word, is_by, Except.map]
    rw [hpurpose]
    rfl

theorem readClause_hint {l : Lexeme} (h : l.token.isAnyKeyword ["USE", "FORCE", "IGNORE"] = true) :
    ∃ kind, ∀ hasTables ls, readClause hasTables l ls =
      readHint kind ls >>= fun p => .ok (.hint p.1, p.2) := by
  obtain ⟨keyword, hmem, hl⟩ := Token.isAnyKeyword_iff.mp h
  have hother : ∀ other, other ∉ ["USE", "FORCE", "IGNORE"] → l.token.isKeyword other = false :=
    fun other hnot => Token.isKeyword_eq_false hl fun heq => hnot (heq ▸ hmem)
  have hkind : ∃ kind, hintKind? l.token = some kind := by
    simp only [Token.isAnyKeyword, List.any_cons, List.any_nil, Bool.or_eq_true] at h
    unfold hintKind?
    split
    · exact ⟨_, rfl⟩
    split
    · exact ⟨_, rfl⟩
    split
    · exact ⟨_, rfl⟩
    · simp_all
  obtain ⟨kind, hkind⟩ := hkind
  refine ⟨kind, fun hasTables ls => ?_⟩
  simp only [readClause, hother "WHERE" (by decide), hother "GROUP" (by decide),
    hother "HAVING" (by decide), hother "ORDER" (by decide), hother "LIMIT" (by decide), hkind,
    Bool.false_eq_true, if_false]
  rfl

theorem Opens.exists_reader {kind : ClauseKind} {l : Lexeme} {words : List Lexeme}
    (h : Opens kind l words) : ∃ read, ReadsBody kind l words read := by
  cases h with
  | conditions is_where =>
    refine ⟨_, isLocal_readConditions Clause.conditions, ?_, fun _ _ => if_pos is_where⟩
    rintro ls clause rest ⟨⟩
    rfl
  | @groups l second is_group is_by =>
    refine ⟨_, isLocal_readOrderItems fun items => Clause.groups (items.map (·.expr)), ?_, ?_⟩
    · rintro ls clause rest ⟨⟩
      rfl
    · intro hasTables ls
      have hother := Token.isKeyword_eq_false is_group (by decide : "WHERE" ≠ "GROUP")
      simp only [readClause, hother, is_group, readKeyword, List.singleton_append, peek, is_by,
        List.drop_succ_cons, List.drop_zero, Bool.false_eq_true, if_false, if_true]
      rfl
  | @having l is_having =>
    have hother : ∀ other, other ≠ "HAVING" → l.token.isKeyword other = false := fun _ =>
      Token.isKeyword_eq_false is_having
    refine ⟨_, isLocal_readConditions Clause.having, ?_, ?_⟩
    · rintro ls clause rest ⟨⟩
      rfl
    · intro hasTables ls
      simp only [readClause, hother "WHERE" (by decide), hother "GROUP" (by decide), is_having,
        List.nil_append, Bool.false_eq_true, if_false, if_true]
  | @orders l second is_order is_by =>
    have hother : ∀ other, other ≠ "ORDER" → l.token.isKeyword other = false := fun _ =>
      Token.isKeyword_eq_false is_order
    refine ⟨_, isLocal_readOrderItems Clause.orders, ?_, ?_⟩
    · rintro ls clause rest ⟨⟩
      rfl
    · intro hasTables ls
      simp only [readClause, hother "WHERE" (by decide), hother "GROUP" (by decide),
        hother "HAVING" (by decide), is_order, readKeyword, List.singleton_append, peek, is_by,
        List.drop_succ_cons, List.drop_zero, Bool.false_eq_true, if_false, if_true]
      rfl
  | @limit l is_limit =>
    have hother : ∀ other, other ≠ "LIMIT" → l.token.isKeyword other = false := fun _ =>
      Token.isKeyword_eq_false is_limit
    refine ⟨_, isLocal_readLimit.bind fun limit => .pure (Clause.limit limit), ?_, ?_⟩
    · intro ls clause rest h
      obtain ⟨p, -, h⟩ := exists_of_bind_eq_ok h
      cases h
      rfl
    · intro hasTables ls
      simp only [readClause, hother "WHERE" (by decide), hother "GROUP" (by decide),
        hother "HAVING" (by decide), hother "ORDER" (by decide), is_limit, List.nil_append,
        Bool.false_eq_true, if_false, if_true]
      rfl
  | @hint l second purpose is_kind is_index is_purpose =>
    obtain ⟨kind, hclause⟩ := readClause_hint is_kind
    obtain ⟨read, hlocal, hread⟩ := is_purpose.exists_reader kind
    refine ⟨_, hlocal.bind fun hint => .pure (Clause.hint hint), ?_, ?_⟩
    · intro ls clause rest h
      obtain ⟨p, -, h⟩ := exists_of_bind_eq_ok h
      cases h
      rfl
    · intro hasTables ls
      have hindex : (peek (second :: (purpose ++ ls))).isAnyKeyword ["INDEX", "KEY"] = true := is_index
      rw [hclause, List.cons_append, readHint_eq, if_pos hindex]
      exact congrArg (· >>= _) (hread ls)

theorem Opens.isAnyKeyword {kind : ClauseKind} {l : Lexeme} {words : List Lexeme}
    (h : Opens kind l words) : l.token.isAnyKeyword Token.clauseWords = true := by
  cases h with
  | conditions is_where => exact Token.isAnyKeyword_of_isKeyword is_where (by decide)
  | groups is_group => exact Token.isAnyKeyword_of_isKeyword is_group (by decide)
  | having is_having => exact Token.isAnyKeyword_of_isKeyword is_having (by decide)
  | orders is_order => exact Token.isAnyKeyword_of_isKeyword is_order (by decide)
  | limit is_limit => exact Token.isAnyKeyword_of_isKeyword is_limit (by decide)
  | hint is_kind =>
    obtain ⟨keyword, hmem, hkeyword⟩ := Token.isAnyKeyword_iff.mp is_kind
    have hwords : ∀ keyword ∈ ["USE", "FORCE", "IGNORE"], keyword ∈ Token.clauseWords := by decide
    exact Token.isAnyKeyword_of_isKeyword hkeyword (hwords keyword hmem)

theorem Block.boundary (b : Block) (rest : List Lexeme) : Boundary 0 (b.lexemes ++ rest) :=
  boundary_of_word b.opens.isAnyKeyword _

theorem boundary_blocks (blocks : List Block) {last : Lexeme} (rest : List Lexeme)
    (hlast : last.token = .eof ∨ last.token = .semicolon) :
    Boundary 0 (blocks.flatMap Block.lexemes ++ last :: rest) := by
  cases blocks with
  | nil => exact boundary_of_ends hlast 0 rest
  | cons b blocks =>
    rw [List.flatMap_cons, List.append_assoc]
    exact b.boundary _

/-- Wherever the block stands, it adds the clause and nothing else. -/
structure Block.Adds (b : Block) (clause : Clause) : Prop where
  kind_eq : clause.kind = b.kind
  readClauses_eq : ∀ s rest, Boundary 0 rest →
    readClauses s (b.lexemes ++ rest) = readClauses (s.add clause) rest

/-- A block that can be read on its own is read the same way in front of other clauses. -/
theorem Block.exists_adds (b : Block) {s s' : Select} {last : Lexeme} {rest : List Lexeme}
    (hlast : last.token = .eof ∨ last.token = .semicolon)
    (h : readClauses s (b.lexemes ++ last :: rest) = .ok s') : ∃ clause, b.Adds clause := by
  obtain ⟨read, hread⟩ := b.opens.exists_reader
  have hclauses : ∀ s rest, readClauses s (b.lexemes ++ rest) =
      read (b.body ++ rest) >>= fun p => readClauses (s.add p.1) p.2 := by
    intro s rest
    rw [Block.lexemes, List.cons_append, List.append_assoc,
      readClauses_of_word b.opens.isAnyKeyword, hread.readClause_eq]
  rw [hclauses] at h
  obtain ⟨⟨clause, r⟩, hclause, hrest⟩ := exists_of_bind_eq_ok h
  obtain ⟨used, left, hbody, rfl, hused, hother⟩ :=
    hread.isLocal.settle b.closed.unended (quiet_of_ends hlast _ rest) hclause
  have hleft : left = [] := by
    -- What the reader leaves starts another clause, and no other one starts in a closed run.
    have hclosed := b.closed
    rw [hbody] at hclosed
    by_contra hne
    refine hne (hclosed.eq_nil (hused hne) fun l hl => ?_)
    obtain ⟨left', rfl⟩ := List.head?_eq_some_iff.mp hl
    exact endsConditions_of_readClauses hrest
  subst hleft
  refine ⟨clause, hread.kind_eq hclause, fun s rest hrest => ?_⟩
  rw [hclauses, hother rest (by rwa [b.closed.depthAlong_eq_zero])]
  rfl

theorem readClauses_blocks {clause : Block → Clause} {last : Lexeme} {rest : List Lexeme}
    (hlast : last.token = .eof ∨ last.token = .semicolon) (blocks : List Block)
    (hadds : ∀ b ∈ blocks, b.Adds (clause b)) (s : Select) :
    readClauses s (blocks.flatMap Block.lexemes ++ last :: rest) =
      .ok (blocks.foldl (fun s b => s.add (clause b)) s) := by
  induction blocks generalizing s with
  | nil => exact readClauses_of_ends hlast s rest
  | cons b blocks ih =>
    rw [List.flatMap_cons, List.append_assoc,
      (hadds b List.mem_cons_self).readClauses_eq s _ (boundary_blocks blocks rest hlast),
      ih fun c hc => hadds c (List.mem_cons_of_mem b hc)]
    rfl

/-! ### The head of a statement -/

inductive IsTables : List Lexeme → Prop where
  | last {table label : List Lexeme} (names : NamesTable table) (is_label : IsLabel label) :
    IsTables (table ++ label)
  | later {table label rest : List Lexeme} {comma : Lexeme} (names : NamesTable table)
    (is_label : IsLabel label) (is_comma : comma.token = .comma) (tail : IsTables rest) :
    IsTables (table ++ (label ++ comma :: rest))

theorem IsTables.exists_readTables {u : List Lexeme} (h : IsTables u) :
    ∃ tables, ∀ rest, Boundary 0 rest → readTables (u ++ rest) = (tables, rest) := by
  induction h with
  | @last names label hnames hlabel =>
    obtain ⟨table, htable⟩ := exists_readTable hnames hlabel
    refine ⟨[table], fun rest hrest => ?_⟩
    have hread := htable rest fun _ => endsTable_of_boundary hrest
    rw [List.append_assoc]
    cases rest with
    | nil => exact readTables_of_nil hread
    | cons l rest =>
      have hl : l.token ≠ .comma := hrest.peek_ne (by simp) (by simp) rfl
      rw [readTables_of_cons hread, if_neg hl]
  | @later names label u comma hnames hlabel is_comma hu ih =>
    obtain ⟨table, htable⟩ := exists_readTable hnames hlabel
    obtain ⟨tables, htables⟩ := ih
    refine ⟨table :: tables, fun rest hrest => ?_⟩
    have hread := htable (comma :: (u ++ rest)) fun _ => endsTable_of_comma is_comma _
    simp only [List.append_assoc, List.cons_append]
    rw [readTables_of_cons hread, if_pos is_comma, htables rest hrest]

structure Head where
  select : Lexeme
  items : List Lexeme
  start : Lexeme
  tables : List Lexeme
  is_select : select.token.isKeyword "SELECT" = true
  closed : Closed items
  is_from : start.token.isKeyword "FROM" = true
  are_tables : IsTables tables

def Head.lexemes (head : Head) : List Lexeme :=
  head.select :: (head.items ++ head.start :: head.tables)

/-- A closed select list ends at the next boundary. -/
theorem Closed.readSelectItems_eq {front body tail : List Lexeme} (h : Closed (front ++ body))
    (hfront : depthAlong 0 front = 0) (htail : Boundary 0 tail) :
    readSelectItems (body ++ tail) = ((readSelectItems body).1, tail) := by
  have hdepth : depthAlong 0 body = 0 := by
    have hclosed := h.depthAlong_eq_zero
    rwa [depthAlong_append, hfront] at hclosed
  have hrest : (splitItems 0 body).2 = [] := by
    obtain ⟨used, hbody, hstop⟩ := splitItems_stops 0 body
    by_contra hne
    obtain ⟨l, left, hleft⟩ := List.exists_cons_of_ne_nil hne
    rw [hleft] at hbody hstop
    have hl := hstop l rfl
    have hunended := h.unended l (by simp [hbody])
    have hused : depthAlong 0 used = 0 := eq_zero_of_endsItem hl.1 hunended.1 hunended.2
    rw [hbody, ← List.append_assoc] at h
    have hnil := h.eq_nil (by rw [depthAlong_append, hfront, hused]) fun m hm => by
      cases hm
      rw [← hused]
      exact endsConditions_of_endsItem hl.1 hl.2
    cases hnil
  rw [readSelectItems, splitItems_append (by rwa [hdepth]), hrest]
  rfl

theorem Head.exists_bare (head : Head) :
    ∃ bare, ∀ rest, Boundary 0 rest →
      readSelect (head.items ++ head.start :: (head.tables ++ rest)) = readClauses bare rest := by
  have hfrom : ∀ rest, Boundary 0 (head.start :: rest) :=
    boundary_of_word (Token.isAnyKeyword_of_isKeyword head.is_from (by decide))
  have hclosed : Closed (head.items.takeWhile (·.token.isAnyKeyword ["DISTINCT", "ALL"]) ++
      head.items.dropWhile (·.token.isAnyKeyword ["DISTINCT", "ALL"])) := by
    rw [List.takeWhile_append_dropWhile]
    exact head.closed
  obtain ⟨tables, htables⟩ := head.are_tables.exists_readTables
  let items := (readSelectItems
    (head.items.dropWhile (·.token.isAnyKeyword ["DISTINCT", "ALL"]))).1
  refine ⟨Select.add { items := items } (.tables tables), fun rest hrest => ?_⟩
  rw [readSelect_eq, dropWhile_append_of_boundary (hfrom _)]
  dsimp only
  rw [hclosed.readSelectItems_eq (depthAlong_takeWhile _ _) (hfrom _),
    readClauses_from head.is_from, if_pos rfl, htables rest hrest]

/-- Whatever the order of the clauses behind the tables, the statement has all of them, each as in the
statement with no other clause. -/
theorem ofLexemes_perm (head : Head) {blocks : List Block} {last : Lexeme} (rest : List Lexeme)
    (hlast : last.token = .eof ∨ last.token = .semicolon) (hkinds : (blocks.map Block.kind).Nodup)
    (halone : ∀ b ∈ blocks, ∃ s,
      ofLexemes (head.lexemes ++ (b.lexemes ++ last :: rest)) = .ok (some (.select s))) :
    ∃ (bare : Select) (clause : Block → Clause),
      ofLexemes (head.lexemes ++ last :: rest) = .ok (some (.select bare)) ∧
      (∀ b ∈ blocks, (clause b).kind = b.kind ∧
        ofLexemes (head.lexemes ++ (b.lexemes ++ last :: rest)) =
          .ok (some (.select (bare.add (clause b))))) ∧
      ∀ blocks', blocks.Perm blocks' →
        ofLexemes (head.lexemes ++ (blocks'.flatMap Block.lexemes ++ last :: rest)) =
          .ok (some (.select (blocks.foldl (fun s b => s.add (clause b)) bare))) := by
  obtain ⟨bare, hbare⟩ := head.exists_bare
  -- Behind the tables a statement is what its clauses make of the bare one.
  have hread : ∀ tail s, Boundary 0 tail →
      (ofLexemes (head.lexemes ++ tail) = .ok (some (.select s)) ↔ readClauses bare tail = .ok s) := by
    intro tail s htail
    rw [Head.lexemes, List.cons_append, ofLexemes_select_iff head.is_select, List.append_assoc,
      List.cons_append, hbare tail htail]
    simp
  -- Each block can be read alone, so it has a clause that it adds wherever it stands.
  have hadds : ∀ b, ∃ clause, b ∈ blocks → b.Adds clause := by
    intro b
    by_cases hb : b ∈ blocks
    · obtain ⟨s, hs⟩ := halone b hb
      rw [hread _ s (b.boundary _)] at hs
      obtain ⟨clause, hclause⟩ := b.exists_adds hlast hs
      exact ⟨clause, fun _ => hclause⟩
    · exact ⟨.groups [], fun h => absurd h hb⟩
  obtain ⟨clause, hclause⟩ := Classical.skolem.mp hadds
  refine ⟨bare, clause, ?_, ?_, ?_⟩
  · rw [hread _ _ (boundary_of_ends hlast 0 rest), readClauses_of_ends hlast]
  · intro b hb
    refine ⟨(hclause b hb).kind_eq, ?_⟩
    rw [hread _ _ (b.boundary _), (hclause b hb).readClauses_eq _ _ (boundary_of_ends hlast 0 rest),
      readClauses_of_ends hlast]
  · intro blocks' hperm
    rw [hread _ _ (boundary_blocks blocks' rest hlast),
      readClauses_blocks hlast blocks' fun b hb => hclause b (hperm.mem_iff.mpr hb)]
    refine congrArg _ (hperm.foldl_eq' (fun b hb c hc s => ?_) bare).symm
    -- Clauses of different kinds set different fields of a statement.
    by_cases hbc : b.kind = c.kind
    · rw [List.inj_on_of_nodup_map hkinds hb hc hbc]
    · exact add_comm (by rwa [(hclause b hb).kind_eq, (hclause c hc).kind_eq]) s

/-- Brackets in the select list and in two of the blocks, and the keywords of another clause in the
purpose of the hint. -/
theorem ofLexemes_perm_hint :
    let head : Head :=
      { select := ⟨[], "SELECT".toList, .word "SELECT"⟩
        items :=
          [⟨[' '], ['f'], .word "f"⟩, ⟨[], ['('], .lparen⟩, ⟨[], ['a'], .word "a"⟩, ⟨[], [')'], .rparen⟩]
        start := ⟨[' '], "FROM".toList, .word "FROM"⟩
        tables := [⟨[' '], ['t'], .word "t"⟩, ⟨[' '], ['x'], .word "x"⟩]
        is_select := by decide
        closed := ⟨by simp [Unended], by decide, by decide, by decide⟩
        is_from := by decide
        are_tables := .last (.plain (by decide) : NamesTable [⟨[' '], ['t'], .word "t"⟩])
          (.bare (by decide)) }
    let conditions : Block :=
      { kind := .conditions
        first := ⟨[' '], "WHERE".toList, .word "WHERE"⟩
        words := []
        body := [⟨[' '], ['a'], .word "a"⟩, ⟨[' '], "IN".toList, .word "IN"⟩, ⟨[' '], ['('], .lparen⟩,
          ⟨[], ['1'], .number "1"⟩, ⟨[], [')'], .rparen⟩]
        opens := .conditions (by decide)
        closed := ⟨by simp [Unended], by decide, by decide, by decide⟩ }
    let orders : Block :=
      { kind := .orders
        first := ⟨[' '], "ORDER".toList, .word "ORDER"⟩
        words := [⟨[' '], "BY".toList, .word "BY"⟩]
        body := [⟨[' '], ['a'], .word "a"⟩, ⟨[' '], "DESC".toList, .word "DESC"⟩]
        opens := .orders (by decide) (by decide)
        closed := ⟨by simp [Unended], by decide, by decide, by decide⟩ }
    let hint : Block :=
      { kind := .hint
        first := ⟨[' '], "USE".toList, .word "USE"⟩
        words := [⟨[' '], "INDEX".toList, .word "INDEX"⟩, ⟨[' '], "FOR".toList, .word "FOR"⟩,
          ⟨[' '], "ORDER".toList, .word "ORDER"⟩, ⟨[' '], "BY".toList, .word "BY"⟩]
        body := [⟨[' '], ['('], .lparen⟩, ⟨[], ['i'], .word "i"⟩, ⟨[], [')'], .rparen⟩]
        opens := .hint (by decide) (by decide) (.sorting (by decide) (by decide) (by decide))
        closed := ⟨by simp [Unended], by decide, by decide, by decide⟩ }
    let s : Select :=
      { items := [⟨"f(a)", some "f", none⟩], tables := [⟨"t", none, some "x"⟩],
        conditions := [.leaf "a IN (1)" ["a"]], orders := [⟨"a", .descending⟩],
        hints := [⟨.use, ["i"]⟩] }
    ∀ blocks, [conditions, orders, hint].Perm blocks →
      ofLexemes (head.lexemes ++ (blocks.flatMap Block.lexemes ++ [⟨[], [], .eof⟩])) =
        .ok (some (.select s)) := by
  intro head conditions orders hint s blocks hperm
  have halone : ∀ b ∈ [conditions, orders, hint], ∃ s,
      ofLexemes (head.lexemes ++ (b.lexemes ++ [⟨[], [], .eof⟩])) = .ok (some (.select s)) := by
    let bare : Select := { items := s.items, tables := s.tables }
    intro b hb
    simp only [List.mem_cons, List.not_mem_nil, or_false] at hb
    rcases hb with rfl | rfl | rfl
    · exact ⟨{ bare with conditions := s.conditions }, eq_ok_of_toOption (by decide +kernel)⟩
    · exact ⟨{ bare with orders := s.orders }, eq_ok_of_toOption (by decide +kernel)⟩
    · exact ⟨{ bare with hints := s.hints }, eq_ok_of_toOption (by decide +kernel)⟩
  obtain ⟨bare, clause, -, -, hall⟩ := ofLexemes_perm head [] (.inl rfl) (by decide) halone
  have hs : ofLexemes (head.lexemes ++ ([conditions, orders, hint].flatMap Block.lexemes ++
      [⟨[], [], .eof⟩])) = .ok (some (.select s)) := eq_ok_of_toOption (by decide +kernel)
  rw [hall blocks hperm, ← hs]
  exact (hall _ (.refl _)).symm

end DocQuery.Statement
