import DocQuery.Proofs.Statement.Depth

/-! Items and conditions end where the statement ends and, outside brackets, where the next clause
starts. What is read in front of such a boundary does not depend on what comes behind it. -/

namespace DocQuery

namespace Token

theorem isKeyword_unique {token : Token} {keyword other : String}
    (h : token.isKeyword keyword = true) (h' : token.isKeyword other = true) : keyword = other := by
  cases token with
  | word name =>
    simp only [isKeyword, beq_iff_eq] at h h'
    exact String.toList_inj.mp (h.symm.trans h')
  | _ => cases h

theorem identifier?_of_isKeyword {token : Token} {keyword : String}
    (h : token.isKeyword keyword = true) (hk : keyword ∈ reserved) : token.identifier? = none := by
  cases token with
  | word name =>
    rw [identifier?, if_pos]
    exact List.any_eq_true.mpr ⟨keyword, hk, h⟩
  | _ => cases h

theorem isAnyKeyword_iff {token : Token} {keywords : List String} :
    token.isAnyKeyword keywords = true ↔ ∃ keyword ∈ keywords, token.isKeyword keyword = true := by
  simp [isAnyKeyword]

theorem isAnyKeyword_of_isKeyword {token : Token} {keyword : String} {keywords : List String}
    (h : token.isKeyword keyword = true) (hk : keyword ∈ keywords) :
    token.isAnyKeyword keywords = true :=
  isAnyKeyword_iff.mpr ⟨keyword, hk, h⟩

theorem isKeyword_eq_false {token : Token} {keyword other : String}
    (h : token.isKeyword keyword = true) (hne : other ≠ keyword) : token.isKeyword other = false := by
  rw [← Bool.not_eq_true]
  exact fun h' => hne (isKeyword_unique h' h)

theorem isAnyKeyword_eq_false {token : Token} {keyword : String} {keywords : List String}
    (h : token.isKeyword keyword = true) (hk : keyword ∉ keywords) :
    token.isAnyKeyword keywords = false := by
  rw [← Bool.not_eq_true, isAnyKeyword_iff]
  rintro ⟨other, hmem, hother⟩
  exact hk (isKeyword_unique h hother ▸ hmem)

end Token

namespace Statement

/-- The depth of nesting after a run. A closing bracket without a partner counts for nothing. -/
def depthAlong (depth : Nat) (run : List Lexeme) : Nat :=
  run.foldl (fun depth l => depthAfter depth l.token) depth

@[simp] theorem depthAlong_nil (depth : Nat) : depthAlong depth [] = depth := rfl

@[simp] theorem depthAlong_cons (depth : Nat) (l : Lexeme) (run : List Lexeme) :
    depthAlong depth (l :: run) = depthAlong (depthAfter depth l.token) run := rfl

@[simp] theorem depthAlong_append (depth : Nat) (run other : List Lexeme) :
    depthAlong depth (run ++ other) = depthAlong (depthAlong depth run) other :=
  List.foldl_append

theorem depthAfter_mono {d e : Nat} (h : d ≤ e) (token : Token) :
    depthAfter d token ≤ depthAfter e token := by
  cases token <;> simp only [depthAfter] <;> omega

theorem depthAlong_mono {d e : Nat} (h : d ≤ e) (run : List Lexeme) :
    depthAlong d run ≤ depthAlong e run := by
  induction run generalizing d e with
  | nil => exact h
  | cons l run ih => exact ih (depthAfter_mono h l.token)

theorem depthAlong_le_append (depth : Nat) (used rest : List Lexeme) :
    depthAlong 0 rest ≤ depthAlong depth (used ++ rest) := by
  rw [depthAlong_append]
  exact depthAlong_mono (Nat.zero_le _) rest

theorem depthAfter_eq {token : Token} (hl : token ≠ .lparen) (hr : token ≠ .rparen) (depth : Nat) :
    depthAfter depth token = depth := by
  cases token <;> simp_all [depthAfter]

theorem depthAfter_of_isKeyword {token : Token} {keyword : String}
    (h : token.isKeyword keyword = true) (depth : Nat) : depthAfter depth token = depth := by
  cases token <;> simp_all [depthAfter, Token.isKeyword]

theorem depthAfter_of_isAnyKeyword {token : Token} {keywords : List String}
    (h : token.isAnyKeyword keywords = true) (depth : Nat) : depthAfter depth token = depth := by
  obtain ⟨keyword, -, h⟩ := Token.isAnyKeyword_iff.mp h
  exact depthAfter_of_isKeyword h depth

theorem depthAlong_takeWhile (keywords : List String) (u : List Lexeme) :
    depthAlong 0 (u.takeWhile (·.token.isAnyKeyword keywords)) = 0 := by
  induction u with
  | nil => rfl
  | cons l u ih =>
    rw [List.takeWhile_cons]
    split
    · rename_i hl
      rw [depthAlong_cons, depthAfter_of_isAnyKeyword hl, ih]
    · rfl

theorem depthAfter_of_connective {token : Token} {word : String}
    (h : token.connective? = some word) (depth : Nat) : depthAfter depth token = depth := by
  cases token <;> simp_all [depthAfter, Token.connective?, Token.isKeyword]

theorem depthAfter_of_name {token : Token} {name : String} (h : token.name? = some name)
    (depth : Nat) : depthAfter depth token = depth := by
  cases token <;> simp_all [depthAfter, Token.name?]

theorem nesting_append (run other : List Lexeme) :
    nesting (run ++ other) = nesting run + nesting other := by
  simp only [nesting, List.countP_append]
  omega

theorem depthAfter_eq_nesting {depth : Nat} {token : Token} (h : token = .rparen → 0 < depth) :
    (depthAfter depth token : Int) = depth + token.nesting := by
  cases token <;> simp [depthAfter, Token.nesting] at h ⊢
  omega

/-- As long as every closing bracket has a partner, the depth is the number of open brackets. -/
theorem depthAlong_eq_nesting {depth : Nat} {run : List Lexeme}
    (h : ∀ read unread, run = read ++ unread → 0 ≤ depth + nesting read) :
    (depthAlong depth run : Int) = depth + nesting run := by
  induction run generalizing depth with
  | nil => simp [nesting]
  | cons l run ih =>
    have hnext : (depthAfter depth l.token : Int) = depth + l.token.nesting := by
      refine depthAfter_eq_nesting fun hl => ?_
      have hopen := h [l] run rfl
      have hclose : nesting [l] = -1 := by simp [nesting, hl]
      omega
    have hrun : (depthAlong (depthAfter depth l.token) run : Int) =
        depthAfter depth l.token + nesting run := by
      refine ih fun read unread hsplit => ?_
      have hread := h (l :: read) unread (by rw [hsplit, List.cons_append])
      rw [nesting_cons] at hread
      omega
    rw [depthAlong_cons, nesting_cons, hrun, hnext]
    omega

/-! ### Boundaries -/

/-- The statement ends here, or a clause starts here outside brackets. -/
def Boundary (depth : Nat) (tail : List Lexeme) : Prop :=
  peek tail = .eof ∨ peek tail = .semicolon ∨
    depth = 0 ∧ (peek tail).isAnyKeyword Token.clauseWords = true

def Unended (run : List Lexeme) : Prop :=
  ∀ l ∈ run, l.token ≠ .eof ∧ l.token ≠ .semicolon

namespace Unended

variable {l : Lexeme} {run other : List Lexeme}

theorem tail (h : Unended (l :: run)) : Unended run :=
  fun m hm => h m (List.mem_cons_of_mem l hm)

theorem left (h : Unended (run ++ other)) : Unended run :=
  fun m hm => h m (List.mem_append_left other hm)

theorem right (h : Unended (run ++ other)) : Unended other :=
  fun m hm => h m (List.mem_append_right run hm)

end Unended

theorem boundary_of_ends {l : Lexeme} (h : l.token = .eof ∨ l.token = .semicolon) (depth : Nat)
    (rest : List Lexeme) : Boundary depth (l :: rest) :=
  h.imp_right .inl

theorem boundary_of_word {l : Lexeme} (h : l.token.isAnyKeyword Token.clauseWords = true)
    (rest : List Lexeme) : Boundary 0 (l :: rest) :=
  .inr (.inr ⟨rfl, h⟩)

namespace Boundary

variable {depth : Nat} {tail : List Lexeme}

theorem mono (h : Boundary depth tail) {lower : Nat} (hle : lower ≤ depth) :
    Boundary lower tail :=
  h.imp_right (Or.imp_right fun hclause => ⟨by omega, hclause.2⟩)

theorem isKeyword_eq_false (h : Boundary depth tail) {keyword : String}
    (hk : keyword ∉ Token.clauseWords) : (peek tail).isKeyword keyword = false := by
  rcases h with h | h | ⟨-, h⟩
  · rw [h]; rfl
  · rw [h]; rfl
  · obtain ⟨word, hword, h⟩ := Token.isAnyKeyword_iff.mp h
    exact Token.isKeyword_eq_false h fun heq => hk (heq ▸ hword)

theorem isAnyKeyword_eq_false (h : Boundary depth tail) {keywords : List String}
    (hk : ∀ keyword ∈ keywords, keyword ∉ Token.clauseWords) :
    (peek tail).isAnyKeyword keywords = false := by
  rw [← Bool.not_eq_true, Token.isAnyKeyword_iff]
  rintro ⟨keyword, hmem, hkeyword⟩
  rw [h.isKeyword_eq_false (hk keyword hmem)] at hkeyword
  cases hkeyword

theorem identifier?_eq_none (h : Boundary depth tail) : (peek tail).identifier? = none := by
  rcases h with h | h | ⟨-, h⟩
  · rw [h]; rfl
  · rw [h]; rfl
  · obtain ⟨word, hword, h⟩ := Token.isAnyKeyword_iff.mp h
    have hreserved : ∀ word ∈ Token.clauseWords, word ∈ Token.reserved := by decide
    exact Token.identifier?_of_isKeyword h (hreserved word hword)

theorem peek_ne (h : Boundary depth tail) {token : Token} (heof : token ≠ .eof)
    (hsemicolon : token ≠ .semicolon)
    (hword : token.isAnyKeyword Token.clauseWords = false) : peek tail ≠ token := by
  rintro rfl
  rcases h with h | h | ⟨-, h⟩
  · exact heof h
  · exact hsemicolon h
  · rw [hword] at h
    cases h

theorem endsItem_eq (h : Boundary depth tail) : endsItem depth (peek tail) = true := by
  rcases h with h | h | ⟨rfl, h⟩
  · rw [h]; rfl
  · rw [h]; rfl
  · unfold endsItem
    split <;> simp_all

theorem endsConditions_eq (h : Boundary depth tail) : endsConditions depth (peek tail) = true := by
  rcases h with h | h | ⟨rfl, h⟩
  · rw [h]; rfl
  · rw [h]; rfl
  · unfold endsConditions
    split <;> simp_all

end Boundary

/-! ### Items and conditions -/

theorem eq_zero_of_endsItem {depth : Nat} {token : Token} (h : endsItem depth token = true)
    (heof : token ≠ .eof) (hsemicolon : token ≠ .semicolon) : depth = 0 := by
  unfold endsItem at h
  split at h <;> simp_all

theorem endsConditions_of_endsItem {depth : Nat} {token : Token} (h : endsItem depth token = true)
    (hcomma : token ≠ .comma) : endsConditions depth token = true := by
  cases token <;> simp_all [endsItem, endsConditions]

theorem eq_zero_of_endsConditions {depth : Nat} {token : Token}
    (h : endsConditions depth token = true) (heof : token ≠ .eof)
    (hsemicolon : token ≠ .semicolon) : depth = 0 := by
  unfold endsConditions at h
  split at h <;> simp_all

theorem splitItems_append {depth : Nat} {u tail : List Lexeme}
    (h : Boundary (depthAlong depth u) tail) :
    splitItems depth (u ++ tail) = ((splitItems depth u).1, (splitItems depth u).2 ++ tail) := by
  fun_induction splitItems depth u with
  | case1 depth =>
    cases tail with
    | nil => rfl
    | cons l tail =>
      have hends : endsItem depth l.token = true := h.endsItem_eq
      have hcomma : l.token ≠ .comma := h.peek_ne (by simp) (by simp) rfl
      rw [List.nil_append, splitItems, if_pos hends, if_neg hcomma]
  | case2 depth l ls hends hcomma runs rest hsplit ih =>
    have hzero : depth = 0 := by simpa [hcomma, endsItem] using hends
    rw [depthAlong_cons, hcomma, hzero] at h
    have hih := ih h
    rw [hsplit] at hih
    rw [List.cons_append, splitItems, if_pos hends, if_pos hcomma, hih]
  | case3 depth l ls hends hcomma =>
    rw [List.cons_append, splitItems, if_pos hends, if_neg hcomma]
  | case4 depth l ls hends runs rest hsplit ih =>
    have hih := ih h
    rw [hsplit] at hih
    rw [List.cons_append, splitItems, if_neg hends, hih]

theorem splitConditions_append {depth : Nat} {between : Bool} {u tail : List Lexeme}
    (h : Boundary (depthAlong depth u) tail) :
    splitConditions depth between (u ++ tail) =
      ((splitConditions depth between u).1, (splitConditions depth between u).2 ++ tail) := by
  fun_induction splitConditions depth between u with
  | case1 depth between =>
    cases tail with
    | nil => rfl
    | cons l tail =>
      have hends : endsConditions depth l.token = true := h.endsConditions_eq
      rw [List.nil_append, splitConditions, if_pos hends]
  | case2 depth between l ls hends =>
    rw [List.cons_append, splitConditions, if_pos hends]
  | case3 depth between l ls hends hnone _ parts rest hsplit ih =>
    have hih : splitConditions (depthAfter depth l.token)
        (between || l.token.isKeyword "BETWEEN") (ls ++ tail) = (parts, rest ++ tail) := by
      have hih := ih h
      rwa [hsplit] at hih
    rw [List.cons_append, splitConditions, if_neg hends]
    simp only [hnone, hih]
  | case4 depth between l ls hends word hword hand parts rest hsplit ih =>
    rw [depthAlong_cons, depthAfter_of_connective hword] at h
    have hih := ih h
    rw [hsplit] at hih
    rw [List.cons_append, splitConditions, if_neg hends]
    simp only [hword, if_pos hand, hih]
  | case5 depth between l ls hends word hword hand parts rest hsplit ih =>
    rw [depthAlong_cons, depthAfter_of_connective hword] at h
    have hih := ih h
    rw [hsplit] at hih
    rw [List.cons_append, splitConditions, if_neg hends]
    simp only [hword, if_neg hand, hih]

theorem splitItems_stops (depth : Nat) (u : List Lexeme) :
    ∃ used, u = used ++ (splitItems depth u).2 ∧
      ∀ l ∈ (splitItems depth u).2.head?,
        endsItem (depthAlong depth used) l.token = true ∧ l.token ≠ .comma := by
  fun_induction splitItems depth u with
  | case1 depth => exact ⟨[], rfl, by simp⟩
  | case2 depth l ls hends hcomma runs rest hsplit ih =>
    obtain ⟨used, hls, hstop⟩ := ih
    have hzero : depth = 0 := by simpa [hcomma, endsItem] using hends
    rw [hsplit] at hls hstop
    exact ⟨l :: used, by rw [hls, List.cons_append], by simpa [hcomma, hzero, depthAfter] using hstop⟩
  | case3 depth l ls hends hcomma => exact ⟨[], rfl, by simpa using ⟨hends, hcomma⟩⟩
  | case4 depth l ls hends runs rest hsplit ih =>
    obtain ⟨used, hls, hstop⟩ := ih
    rw [hsplit] at hls hstop
    exact ⟨l :: used, by rw [hls, List.cons_append], hstop⟩

/-- The first lexeme that ends the conditions is the first one that is left. -/
theorem splitConditions_stops (depth : Nat) (between : Bool) (u : List Lexeme) :
    ∃ used, u = used ++ (splitConditions depth between u).2 ∧
      (∀ l ∈ (splitConditions depth between u).2.head?,
        endsConditions (depthAlong depth used) l.token = true) ∧
      ∀ read (l : Lexeme) unread, used = read ++ l :: unread →
        endsConditions (depthAlong depth read) l.token = false := by
  -- Every step that reads a lexeme leaves its depth to the rest of the run.
  have hstep : ∀ {depth next : Nat} {l : Lexeme} {used : List Lexeme},
      ¬ endsConditions depth l.token = true → depthAfter depth l.token = next →
      (∀ read (m : Lexeme) unread, used = read ++ m :: unread →
        endsConditions (depthAlong next read) m.token = false) →
      ∀ read (m : Lexeme) unread, l :: used = read ++ m :: unread →
        endsConditions (depthAlong depth read) m.token = false := by
    intro depth next l used hl hnext hused read m unread hsplit
    cases read with
    | nil =>
      cases hsplit
      simpa using hl
    | cons first read =>
      cases hsplit
      rw [depthAlong_cons, hnext]
      exact hused read m unread rfl
  fun_induction splitConditions depth between u with
  | case1 depth between => exact ⟨[], rfl, by simp, by simp⟩
  | case2 depth between l ls hends => exact ⟨[], rfl, by simpa using hends, by simp⟩
  | case3 depth between l ls hends hnone _ parts rest hsplit ih =>
    obtain ⟨used, hls, hstop, hused⟩ := ih
    rw [hsplit] at hls hstop
    exact ⟨l :: used, by rw [hls, List.cons_append], hstop, hstep hends rfl hused⟩
  | case4 depth between l ls hends word hword hand parts rest hsplit ih =>
    obtain ⟨used, hls, hstop, hused⟩ := ih
    have hnext := depthAfter_of_connective hword depth
    rw [hsplit] at hls hstop
    exact ⟨l :: used, by rw [hls, List.cons_append], by rwa [depthAlong_cons, hnext],
      hstep hends hnext hused⟩
  | case5 depth between l ls hends word hword hand parts rest hsplit ih =>
    obtain ⟨used, hls, hstop, hused⟩ := ih
    have hnext := depthAfter_of_connective hword depth
    rw [hsplit] at hls hstop
    exact ⟨l :: used, by rw [hls, List.cons_append], by rwa [depthAlong_cons, hnext],
      hstep hends hnext hused⟩

end Statement

end DocQuery
