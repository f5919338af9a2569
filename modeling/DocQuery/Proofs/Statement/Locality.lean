import DocQuery.Proofs.Statement.Boundary

/-! What a clause is made of does not depend on what comes behind it. The readers of its parts are
local: they look no further than the next boundary. -/

namespace DocQuery.Statement

/-- A boundary at which no purpose of an index can go on. -/
def Quiet (depth : Nat) (tail : List Lexeme) : Prop :=
  Boundary depth tail ∧ (peek tail).isAnyKeyword ["ORDER", "GROUP"] = false

theorem quiet_of_ends {l : Lexeme} (h : l.token = .eof ∨ l.token = .semicolon) (depth : Nat)
    (rest : List Lexeme) : Quiet depth (l :: rest) := by
  refine ⟨boundary_of_ends h depth rest, ?_⟩
  rcases h with h | h <;> simp [peek, h, Token.isAnyKeyword, Token.isKeyword]

/-- What the reader takes of the lexemes in front of a boundary does not depend on what comes behind.
When it leaves some of them, it leaves them outside brackets. -/
structure IsLocal {α : Type} (depth : Nat)
    (read : List Lexeme → Except Mismatch (α × List Lexeme)) : Prop where
  settle : ∀ {u tail : List Lexeme} {a : α} {r : List Lexeme}, Unended u →
    Quiet (depthAlong depth u) tail → read (u ++ tail) = .ok (a, r) →
    ∃ used rest, u = used ++ rest ∧ r = rest ++ tail ∧ (rest ≠ [] → depthAlong depth used = 0) ∧
      ∀ other, Boundary (depthAlong depth u) other → read (u ++ other) = .ok (a, rest ++ other)

namespace IsLocal

variable {α β : Type} {depth : Nat} {read : List Lexeme → Except Mismatch (α × List Lexeme)}

theorem pure (a : α) : IsLocal 0 fun ls => .ok (a, ls) := by
  constructor
  intro u tail b r hu htail h
  cases h
  exact ⟨[], u, rfl, rfl, fun _ => rfl, fun other _ => rfl⟩

theorem error {depth : Nat} (e : List Lexeme → Mismatch) :
    IsLocal depth fun ls => (.error (e ls) : Except Mismatch (α × List Lexeme)) := by
  constructor
  intro u tail a r hu htail h
  cases h

theorem bind (h : IsLocal depth read) {next : α → List Lexeme → Except Mismatch (β × List Lexeme)}
    (hnext : ∀ a, IsLocal 0 (next a)) : IsLocal depth fun ls => read ls >>= fun p => next p.1 p.2 := by
  constructor
  intro u tail b r hu htail hr
  obtain ⟨⟨a, mid⟩, ha, hb⟩ := exists_of_bind_eq_ok hr
  obtain ⟨used, rest, rfl, rfl, hused, hother⟩ := h.settle hu htail ha
  have hle := depthAlong_le_append depth used rest
  obtain ⟨used', rest', rfl, rfl, hused', hother'⟩ :=
    (hnext a).settle hu.right ⟨htail.1.mono hle, htail.2⟩ hb
  refine ⟨used ++ used', rest', by rw [List.append_assoc], rfl, ?_, ?_⟩
  · intro hne
    rw [depthAlong_append, hused (by simp [hne]), hused' hne]
  · intro other hboundary
    rw [hother other hboundary]
    exact hother' other (hboundary.mono hle)

theorem ite {p : Token → Prop} [DecidablePred p]
    (hboundary : ∀ depth tail, Boundary depth tail → ¬ p (peek tail))
    (hdepth : ∀ token, p token → depthAfter 0 token = depth)
    {first second : List Lexeme → Except Mismatch (α × List Lexeme)}
    (hfirst : IsLocal depth first) (hsecond : IsLocal 0 second) :
    IsLocal 0 fun ls => if p (peek ls) then first (ls.drop 1) else second ls := by
  constructor
  intro u tail a r hu htail h
  cases u with
  | nil =>
    have hread : second tail = .ok (a, r) := (if_neg (hboundary _ _ htail.1)).symm.trans h
    obtain ⟨used, rest, hsplit, hr, hused, hother⟩ := hsecond.settle hu htail hread
    exact ⟨used, rest, hsplit, hr, hused, fun other hb =>
      (if_neg (hboundary _ _ hb)).trans (hother other hb)⟩
  | cons l u =>
    by_cases hl : p l.token
    · have hread : first (u ++ tail) = .ok (a, r) := (if_pos hl).symm.trans h
      rw [depthAlong_cons, hdepth l.token hl] at htail
      obtain ⟨used, rest, rfl, rfl, hused, hother⟩ :=
        hfirst.settle hu.tail htail hread
      refine ⟨l :: used, rest, rfl, rfl, ?_, ?_⟩
      · rwa [depthAlong_cons, hdepth l.token hl]
      · intro other hb
        rw [depthAlong_cons, hdepth l.token hl] at hb
        exact (if_pos hl).trans (hother other hb)
    · have hread : second (l :: u ++ tail) = .ok (a, r) := (if_neg hl).symm.trans h
      obtain ⟨used, rest, hsplit, hr, hused, hother⟩ := hsecond.settle hu htail hread
      exact ⟨used, rest, hsplit, hr, hused, fun other hb => (if_neg hl).trans (hother other hb)⟩

theorem token {read? : Token → Option α}
    (hboundary : ∀ depth tail, Boundary depth tail → read? (peek tail) = none)
    (hbracket : read? .lparen = none ∧ read? .rparen = none) (f : α → β)
    (e : List Lexeme → Mismatch) :
    IsLocal 0 fun ls => (read? (peek ls)).elim (.error (e ls)) fun a => .ok (f a, ls.drop 1) := by
  constructor
  intro u tail b r hu htail h
  cases u with
  | nil =>
    rw [List.nil_append, hboundary _ _ htail.1] at h
    cases h
  | cons l u =>
    cases hl : read? l.token with
    | none =>
      simp only [List.cons_append, peek, hl] at h
      cases h
    | some a =>
      simp only [List.cons_append, peek, hl] at h
      cases h
      have hdepth : depthAfter 0 l.token = 0 := by
        apply depthAfter_eq
        · intro heq
          simp [heq, hbracket.1] at hl
        · intro heq
          simp [heq, hbracket.2] at hl
      refine ⟨[l], u, rfl, rfl, fun _ => hdepth, fun other _ => ?_⟩
      simp only [List.cons_append, peek, hl]
      rfl

theorem total {read : List Lexeme → β × List Lexeme}
    (happend : ∀ {u tail : List Lexeme}, Boundary (depthAlong 0 u) tail →
      read (u ++ tail) = ((read u).1, (read u).2 ++ tail))
    (hstops : ∀ u, ∃ used, u = used ++ (read u).2 ∧ ∀ l ∈ (read u).2.head?,
      l.token ≠ .eof → l.token ≠ .semicolon → depthAlong 0 used = 0) (f : β → α) :
    IsLocal 0 fun ls => .ok (f (read ls).1, (read ls).2) := by
  constructor
  intro u tail a r hu htail h
  rw [happend htail.1] at h
  cases h
  obtain ⟨used, hsplit, hstop⟩ := hstops u
  refine ⟨used, (read u).2, hsplit, rfl, fun hne => ?_, fun other hb => by rw [happend hb]⟩
  obtain ⟨l, rest, hrest⟩ := List.exists_cons_of_ne_nil hne
  have hl := hu l (by rw [hsplit, hrest]; simp)
  exact hstop l (by simp [hrest]) hl.1 hl.2

end IsLocal

theorem isLocal_readRowCount : IsLocal 0 readRowCount := by
  have heq : readRowCount = fun ls => (rowCount? (peek ls)).elim (.error (.rowCount, ls))
      fun n => .ok (n, ls.drop 1) := by
    funext ls
    unfold readRowCount
    cases rowCount? (peek ls) <;> rfl
  rw [heq]
  refine .token ?_ ⟨rfl, rfl⟩ id _
  rintro depth tail (htail | htail | ⟨-, htail⟩)
  · rw [htail]; rfl
  · rw [htail]; rfl
  · cases hpeek : peek tail <;> simp_all [rowCount?, Token.isAnyKeyword, Token.isKeyword]

theorem isLocal_readLimit : IsLocal 0 readLimit := by
  have hcount (f : Nat → Limit) :
      IsLocal 0 fun ls => readRowCount ls >>= fun p => .ok (f p.1, p.2) :=
    isLocal_readRowCount.bind fun n => .pure (f n)
  have hoffset (first : Nat) : IsLocal 0 fun ls =>
      if (peek ls).isKeyword "OFFSET" = true then
        readRowCount (ls.drop 1) >>= fun p => .ok (Limit.mk p.1 first, p.2)
      else .ok (Limit.mk 0 first, ls) :=
    .ite (p := (·.isKeyword "OFFSET" = true))
      (fun _ _ h => by simp [h.isKeyword_eq_false (by decide : "OFFSET" ∉ _)])
      (fun _ h => depthAfter_of_isKeyword h 0) (hcount fun offset => ⟨offset, first⟩) (.pure _)
  have hcomma (first : Nat) : IsLocal 0 fun ls =>
      if peek ls = .comma then readRowCount (ls.drop 1) >>= fun p => .ok (Limit.mk first p.1, p.2)
      else if (peek ls).isKeyword "OFFSET" = true then
        readRowCount (ls.drop 1) >>= fun p => .ok (Limit.mk p.1 first, p.2)
      else .ok (Limit.mk 0 first, ls) :=
    .ite (p := (· = .comma)) (fun _ _ h => h.peek_ne (by simp) (by simp) rfl)
      (by rintro _ rfl; rfl) (hcount (Limit.mk first)) (hoffset first)
  exact isLocal_readRowCount.bind hcomma

/-! ### Index hints -/

def skipComma (ls : List Lexeme) : List Lexeme :=
  if peek ls = .comma then ls.drop 1 else ls

theorem skipComma_append {depth : Nat} {tail : List Lexeme} (h : Boundary depth tail)
    (u : List Lexeme) : skipComma (u ++ tail) = skipComma u ++ tail := by
  cases u with
  | nil => exact if_neg (h.peek_ne (by simp) (by simp) rfl)
  | cons l u =>
    by_cases hl : l.token = .comma
    · simp [skipComma, peek, hl]
    · simp [skipComma, peek, hl]

theorem exists_skipComma (u : List Lexeme) :
    ∃ comma, u = comma ++ skipComma u ∧ ∀ depth, depthAlong depth comma = depth := by
  cases u with
  | nil => exact ⟨[], rfl, fun _ => rfl⟩
  | cons l u =>
    by_cases hl : l.token = .comma
    · exact ⟨[l], by simp [skipComma, peek, hl], fun depth => by simp [hl, depthAfter]⟩
    · exact ⟨[], by simp [skipComma, peek, hl], fun _ => rfl⟩

theorem readIndexNames_cons (l : Lexeme) (ls : List Lexeme) :
    readIndexNames (l :: ls) =
      if l.token = .rparen then .ok ([], ls)
      else l.token.name?.elim (.error (.indexName, l :: ls)) fun name =>
        readIndexNames (skipComma ls) >>= fun p => .ok (name :: p.1, p.2) := by
  rw [readIndexNames]
  split
  · rfl
  · cases l.token.name? with
    | none => rfl
    | some name =>
      cases ls with
      | nil => rfl
      | cons m ms =>
        by_cases hm : m.token = .comma
        · rw [show skipComma (m :: ms) = ms from if_pos hm]
          exact if_pos hm
        · rw [show skipComma (m :: ms) = m :: ms from if_neg hm]
          exact if_neg hm

theorem isLocal_readIndexNames : IsLocal 1 readIndexNames := by
  constructor
  intro u
  induction hlen : u.length using Nat.strongRecOn generalizing u with
  | ind n ih =>
    intro tail names r hu htail h
    cases u with
    | nil =>
      -- Inside brackets only the end of the statement is a boundary, and it is no name.
      cases tail with
      | nil => cases h
      | cons l tail =>
        rw [List.nil_append, readIndexNames_cons] at h
        rcases htail.1 with hl | hl | ⟨hl, -⟩
        · rw [show l.token = .eof from hl] at h
          cases h
        · rw [show l.token = .semicolon from hl] at h
          cases h
        · cases hl
    | cons l u =>
      rw [List.cons_append, readIndexNames_cons] at h
      by_cases hl : l.token = .rparen
      · rw [if_pos hl] at h
        cases h
        refine ⟨[l], u, rfl, rfl, fun _ => by simp [hl, depthAfter], fun other _ => ?_⟩
        rw [List.cons_append, readIndexNames_cons, if_pos hl]
      · rw [if_neg hl] at h
        cases hname : l.token.name? with
        | none =>
          rw [hname] at h
          cases h
        | some name =>
          rw [hname] at h
          obtain ⟨⟨names', r'⟩, hread, hnames⟩ := exists_of_bind_eq_ok h
          cases hnames
          obtain ⟨comma, hcomma, hdepth⟩ := exists_skipComma u
          have hskip : depthAlong 1 (l :: u) = depthAlong 1 (skipComma u) :=
            calc depthAlong 1 (l :: u) = depthAlong 1 u := by
                  rw [depthAlong_cons, depthAfter_of_name hname]
              _ = depthAlong 1 (comma ++ skipComma u) := by rw [← hcomma]
              _ = depthAlong 1 (skipComma u) := by rw [depthAlong_append, hdepth]
          rw [skipComma_append htail.1] at hread
          rw [hskip] at htail ⊢
          have hlength := congrArg List.length hcomma
          rw [List.length_append] at hlength
          rw [List.length_cons] at hlen
          obtain ⟨used, rest, hsplit, rfl, hused, hother⟩ := ih _ (by omega) rfl
            (fun m hm => hu m (by rw [hcomma]; simp [hm])) htail hread
          refine ⟨l :: (comma ++ used), rest, ?_, rfl, ?_, ?_⟩
          · rw [List.cons_append, List.append_assoc, ← hsplit, ← hcomma]
          · rwa [depthAlong_cons, depthAfter_of_name hname, depthAlong_append, hdepth]
          · intro other hb
            rw [List.cons_append, readIndexNames_cons, if_neg hl, hname, skipComma_append hb]
            dsimp only [Option.elim]
            rw [hother other hb]
            rfl

def readIndexes (kind : HintKind) (ls : List Lexeme) : Except Mismatch (IndexHint × List Lexeme) :=
  if peek ls = .lparen then readIndexNames (ls.drop 1) >>= fun p => .ok (⟨kind, p.1⟩, p.2)
  else (peek ls).identifier?.elim (.error (.indexName, ls)) fun name =>
    .ok (⟨kind, [name]⟩, ls.drop 1)

theorem isLocal_readIndexes (kind : HintKind) : IsLocal 0 (readIndexes kind) := by
  have hnames : IsLocal 1 fun ls => readIndexNames ls >>= fun p => .ok (IndexHint.mk kind p.1, p.2) :=
    isLocal_readIndexNames.bind fun names => .pure (IndexHint.mk kind names)
  have hname : IsLocal 0 fun ls => (peek ls).identifier?.elim (.error (.indexName, ls))
      fun name => .ok (IndexHint.mk kind [name], ls.drop 1) := by
    exact .token (fun _ _ h => h.identifier?_eq_none) ⟨rfl, rfl⟩ (fun name => IndexHint.mk kind [name]) _
  exact .ite (p := (· = .lparen)) (fun _ _ h => h.peek_ne (by simp) (by simp) rfl)
    (by rintro _ rfl; rfl) hnames hname

def advance (read : List Lexeme → Except Mismatch (List Lexeme)) (ls : List Lexeme) :
    Except Mismatch (Unit × List Lexeme) :=
  (read ls).map ((), ·)

theorem advance_bind {α : Type} (read : List Lexeme → Except Mismatch (List Lexeme))
    (next : List Lexeme → Except Mismatch α) (ls : List Lexeme) :
    (read ls >>= next) = advance read ls >>= fun p => next p.2 := by
  unfold advance
  cases read ls <;> rfl

theorem isLocal_readKeyword {keyword : String} (hk : keyword ∉ Token.clauseWords)
    (expected : Expectation) : IsLocal 0 (advance (readKeyword keyword expected)) := by
  have heq : advance (readKeyword keyword expected) = fun ls =>
      if (peek ls).isKeyword keyword = true then .ok ((), ls.drop 1) else .error (expected, ls) := by
    funext ls
    unfold advance readKeyword
    split <;> rfl
  rw [heq]
  exact .ite (p := (·.isKeyword keyword = true)) (fun _ _ h => by simp [h.isKeyword_eq_false hk])
    (fun _ h => depthAfter_of_isKeyword h 0) (.pure ()) (.error fun ls => (expected, ls))

/-- What an index is used for, behind `FOR`. Here the keywords of a clause do not start one. -/
theorem isLocal_purpose : IsLocal 0 fun ls =>
    if (peek ls).isAnyKeyword ["ORDER", "GROUP"] = true then
      advance (readKeyword "BY" .byKeyword) (ls.drop 1)
    else advance (readKeyword "JOIN" .joinKeyword) ls := by
  have hby := isLocal_readKeyword (by decide : "BY" ∉ Token.clauseWords) .byKeyword
  have hjoin := isLocal_readKeyword (by decide : "JOIN" ∉ Token.clauseWords) .joinKeyword
  constructor
  intro u tail a r hu htail h
  cases u with
  | nil =>
    -- At a quiet boundary there is no purpose to be read.
    simp only [List.nil_append, htail.2, Bool.false_eq_true, if_false, advance, readKeyword,
      htail.1.isKeyword_eq_false (by decide : "JOIN" ∉ _)] at h
    cases h
  | cons l u =>
    by_cases hl : l.token.isAnyKeyword ["ORDER", "GROUP"] = true
    · have hread : advance (readKeyword "BY" .byKeyword) (u ++ tail) = .ok (a, r) :=
        (if_pos hl).symm.trans h
      rw [depthAlong_cons, depthAfter_of_isAnyKeyword hl] at htail
      obtain ⟨used, rest, rfl, rfl, hused, hother⟩ :=
        hby.settle hu.tail htail hread
      refine ⟨l :: used, rest, rfl, rfl, ?_, ?_⟩
      · rwa [depthAlong_cons, depthAfter_of_isAnyKeyword hl]
      · intro other hb
        rw [depthAlong_cons, depthAfter_of_isAnyKeyword hl] at hb
        exact (if_pos hl).trans (hother other hb)
    · have hread : advance (readKeyword "JOIN" .joinKeyword) (l :: u ++ tail) = .ok (a, r) :=
        (if_neg hl).symm.trans h
      obtain ⟨used, rest, hsplit, hr, hused, hother⟩ := hjoin.settle hu htail hread
      exact ⟨used, rest, hsplit, hr, hused, fun other hb => (if_neg hl).trans (hother other hb)⟩

theorem isLocal_readPurpose : IsLocal 0 (advance readPurpose) := by
  have heq : advance readPurpose = fun ls =>
      if (peek ls).isKeyword "FOR" = true then
        if (peek (ls.drop 1)).isAnyKeyword ["ORDER", "GROUP"] = true then
          advance (readKeyword "BY" .byKeyword) ((ls.drop 1).drop 1)
        else advance (readKeyword "JOIN" .joinKeyword) (ls.drop 1)
      else .ok ((), ls) := by
    funext ls
    unfold advance readPurpose
    dsimp only
    split
    · split <;> rfl
    · rfl
  rw [heq]
  exact .ite (p := (·.isKeyword "FOR" = true))
    (fun _ _ h => by simp [h.isKeyword_eq_false (by decide : "FOR" ∉ _)])
    (fun _ h => depthAfter_of_isKeyword h 0) isLocal_purpose (.pure ())

theorem readHint_eq (kind : HintKind) (ls : List Lexeme) :
    readHint kind ls =
      if (peek ls).isAnyKeyword ["INDEX", "KEY"] = true then
        advance readPurpose (ls.drop 1) >>= fun p => readIndexes kind p.2
      else .error (.indexKeyword, ls) := by
  rw [← advance_bind, readHint]
  cases (peek ls).isAnyKeyword ["INDEX", "KEY"] with
  | false => rfl
  | true =>
    refine congrArg (readPurpose (ls.drop 1) >>= ·) (funext fun rest => ?_)
    unfold readIndexes
    cases (peek rest).identifier? <;> rfl

theorem isLocal_readHint (kind : HintKind) : IsLocal 0 (readHint kind) := by
  have hpurpose : IsLocal 0 fun ls => advance readPurpose ls >>= fun p => readIndexes kind p.2 :=
    isLocal_readPurpose.bind fun _ => isLocal_readIndexes kind
  rw [funext (readHint_eq kind)]
  exact .ite (p := (·.isAnyKeyword ["INDEX", "KEY"] = true))
    (fun _ _ h => by simp [h.isAnyKeyword_eq_false (by decide : ∀ k ∈ ["INDEX", "KEY"], _)])
    (fun _ h => depthAfter_of_isAnyKeyword h 0) hpurpose (.error fun ls => (.indexKeyword, ls))

/-! ### Clauses -/

theorem isLocal_readConditions {α : Type} (f : List Condition → α) :
    IsLocal 0 fun ls => .ok (f (readConditions ls).1, (readConditions ls).2) := by
  refine .total (fun h => by simp only [readConditions, splitConditions_append h]) (fun u => ?_) f
  obtain ⟨used, hsplit, hstop, -⟩ := splitConditions_stops 0 false u
  exact ⟨used, hsplit, fun l hl => eq_zero_of_endsConditions (hstop l hl)⟩

theorem isLocal_readSelectItems :
    IsLocal 0 fun ls => .ok ((readSelectItems ls).1, (readSelectItems ls).2) := by
  refine .total (fun h => by simp only [readSelectItems, splitItems_append h]) (fun u => ?_) id
  obtain ⟨used, hsplit, hstop⟩ := splitItems_stops 0 u
  exact ⟨used, hsplit, fun l hl => eq_zero_of_endsItem (hstop l hl).1⟩

theorem isLocal_readOrderItems {α : Type} (f : List OrderItem → α) :
    IsLocal 0 fun ls => .ok (f (readOrderItems ls).1, (readOrderItems ls).2) := by
  refine .total (fun h => by simp only [readOrderItems, splitItems_append h]) (fun u => ?_) f
  obtain ⟨used, hsplit, hstop⟩ := splitItems_stops 0 u
  exact ⟨used, hsplit, fun l hl => eq_zero_of_endsItem (hstop l hl).1⟩

theorem isLocal_readClause {hasTables : Bool} {l : Lexeme} (hl : l.token.isKeyword "FROM" = false) :
    IsLocal 0 (readClause hasTables l) := by
  have hby := isLocal_readKeyword (by decide : "BY" ∉ Token.clauseWords) .byKeyword
  unfold readClause
  split
  · exact isLocal_readConditions Clause.conditions
  split
  · simp only [advance_bind]
    exact hby.bind fun _ => isLocal_readOrderItems fun items => Clause.groups (items.map (·.expr))
  split
  · exact isLocal_readConditions Clause.having
  split
  · simp only [advance_bind]
    exact hby.bind fun _ => isLocal_readOrderItems Clause.orders
  split
  · exact isLocal_readLimit.bind fun limit => .pure (Clause.limit limit)
  split
  · rename_i kind hkind
    exact (isLocal_readHint kind).bind fun hint => .pure (Clause.hint hint)
  · simp only [hl, Bool.false_and, Bool.false_eq_true, if_false]
    exact .error fun ls => (.clause, l :: ls)

end DocQuery.Statement
