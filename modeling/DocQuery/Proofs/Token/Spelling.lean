import DocQuery.Proofs.Statement.Items
import DocQuery.Proofs.Token.Brackets

/-! Spellings of a string, and what a string has in common with its value. -/

namespace DocQuery.Lexeme

/-! ### Reading -/

theorem spells_of_readQuoted {quote : Char} {text value : List Char} {n : Nat}
    (h : readQuoted quote true text = .ok (value, n)) :
    ∃ raw, text.take n = raw ++ [quote] ∧ Spells quote raw value := by
  fun_induction readQuoted quote true text generalizing value n with
  | case1 => cases h
  | case2 =>
    cases h
    exact ⟨[], rfl, .nil⟩
  | case3 => cases h
  | case4 => cases h
  | case5 text ih =>
    obtain ⟨tail, m, hread, rfl, rfl⟩ := consDecoded_eq_ok h
    obtain ⟨raw, htake, hraw⟩ := ih hread
    exact ⟨quote :: quote :: raw, by simp [htake], hraw.doubled⟩
  | case6 d text =>
    cases h
    exact ⟨[], rfl, .nil⟩
  | case7 c d text hc hescape ih =>
    obtain ⟨tail, m, hread, rfl, rfl⟩ := consDecoded_eq_ok h
    obtain ⟨raw, htake, hraw⟩ := ih hread
    exact ⟨'\\' :: d :: raw, by simp [htake, hescape.1], hraw.escaped d⟩
  | case8 c d text hc hescape ih =>
    obtain ⟨tail, m, hread, rfl, rfl⟩ := consDecoded_eq_ok h
    obtain ⟨raw, htake, hraw⟩ := ih hread
    exact ⟨c :: raw, by simp [htake], hraw.plain hc (by simpa using hescape)⟩

theorem spells_of_quotedToken (quote : Quote) {text : List Char} {token : Token} {n : Nat}
    (h : quotedToken quote.char true (.string · quote) text = .ok (token, n)) :
    ∃ raw value, quote.char :: text.take n = quote.char :: (raw ++ [quote.char]) ∧
      token = .string (String.ofList value) quote ∧ Spells quote.char raw value := by
  obtain ⟨⟨value, length⟩, hread, h⟩ := Statement.exists_of_bind_eq_ok h
  cases h
  obtain ⟨raw, htake, hraw⟩ := spells_of_readQuoted hread
  exact ⟨raw, value, by rw [htake], rfl, hraw⟩

theorem spells_of_next {c : Char} {text : List Char} {value : String} {quote : Quote} {n : Nat}
    (h : next c text = .ok (.string value quote, n)) :
    ∃ raw, c :: text.take n = quote.char :: (raw ++ [quote.char]) ∧
      Spells quote.char raw value.toList := by
  fun_cases next c text
  case case25 =>
    simp only [next] at h
    obtain ⟨raw, decoded, htext, htoken, hraw⟩ := spells_of_quotedToken .single h
    cases htoken
    exact ⟨raw, htext, by simpa using hraw⟩
  case case26 =>
    simp only [next] at h
    obtain ⟨raw, decoded, htext, htoken, hraw⟩ := spells_of_quotedToken .double h
    cases htoken
    exact ⟨raw, htext, by simpa using hraw⟩
  all_goals simp_all [next, quotedToken_ne]

theorem spells_of_all {source : List Char} {ls : List Lexeme} (h : all source = .ok ls)
    {gap text : List Char} {value : String} {quote : Quote}
    (hmem : ⟨gap, text, .string value quote⟩ ∈ ls) :
    ∃ raw, text = quote.char :: (raw ++ [quote.char]) ∧ Spells quote.char raw value.toList := by
  have hall : ∀ l ∈ ls, ∀ value quote, l.token = .string value quote →
      ∃ raw, l.text = quote.char :: (raw ++ [quote.char]) ∧
        Spells quote.char raw value.toList := by
    refine forall_mem_of_all (fun _ _ _ h => by cases h) ?_ h
    intro c text token n _ hnext value quote htoken
    simp only at htoken
    rw [htoken] at hnext
    exact spells_of_next hnext
  exact hall _ hmem value quote rfl

/-! ### What a spelling keeps -/

/-- A class of characters keeps to itself under escapes if it treats alike what they are about. -/
theorem unescape_class {p : Char → Bool}
    (h : ∀ d ∈ ['t', 'r', '0', '\n', '\t', '\r', '\x00'], p d = p 'n') (c : Char) :
    p (unescape c) = p c := by
  unfold unescape
  grind

/-- The characters of which escapes are made. -/
def isMark (quote c : Char) : Bool :=
  c == quote || c == '\\'

section Spelling

variable {quote : Char} {raw value : List Char}

/-- Characters that are neither the quote nor the backslash are neither lost nor added. -/
theorem Spells.countP_eq (h : Spells quote raw value) {p : Char → Bool} (hquote : p quote = false)
    (hslash : p '\\' = false) (hescape : ∀ c, p (unescape c) = p c) :
    raw.countP p = value.countP p := by
  induction h with
  | nil => rfl
  | doubled h ih => simp [hquote, ih]
  | escaped c h ih => simp [List.countP_cons, hslash, hescape, ih]
  | plain hc hd h ih => simp [List.countP_cons, ih]

theorem Spells.balance_eq (h : Spells quote raw value) (hslash : quote ≠ '\\')
    (hquote : Condition.balance [quote] = 0) :
    Condition.balance raw = Condition.balance value := by
  have hend : ∀ c ∈ ([] : List Char).head?, c ≠ quote := by simp
  have hbalance := balance_of_readQuoted hquote (h.readQuoted_append hslash hend)
  rw [List.take_of_length_le (by simp), Condition.balance_append, hquote] at hbalance
  omega

theorem Spells.length_le (h : Spells quote raw value) : raw.length ≤ 2 * value.length := by
  induction h with
  | nil => exact Nat.le_refl 0
  | _ =>
    simp only [List.length_cons]
    omega

/-- A text that spells something else than itself has more quotes and backslashes than that. -/
theorem Spells.eq_or_countP_lt (h : Spells quote raw value)
    (hescape : ∀ c, isMark quote (unescape c) = isMark quote c) :
    raw = value ∨ value.countP (isMark quote) < raw.countP (isMark quote) := by
  have hquote : isMark quote quote = true := by simp [isMark]
  have hslash : isMark quote '\\' = true := by simp [isMark]
  induction h with
  | nil => exact .inl rfl
  | @doubled raw value h ih =>
    refine .inr ?_
    rw [List.countP_cons_of_pos hquote, List.countP_cons_of_pos hquote,
      List.countP_cons_of_pos hquote]
    rcases ih with rfl | ih <;> omega
  | @escaped c raw value h ih =>
    refine .inr ?_
    rw [List.countP_cons_of_pos hslash, List.countP_cons, List.countP_cons, hescape]
    rcases ih with rfl | ih <;> omega
  | @plain c hquote hslash raw value h ih =>
    have hneg : ¬ isMark quote c = true := by simp [isMark, hquote, hslash]
    rw [List.countP_cons_of_neg hneg, List.countP_cons_of_neg hneg]
    exact ih.imp_left (congrArg (c :: ·))

theorem Spells.isPrefix (h : Spells quote raw value) {name : List Char} {q : Char}
    (hname : ∀ c ∈ name, c ≠ quote ∧ c ≠ '\\') (hq : q ≠ '\\')
    (hstarts : name ++ [q] <+: raw ++ [quote]) : name ++ [q] <+: value ++ [quote] := by
  induction h generalizing name with
  | nil => exact hstarts
  | doubled h ih =>
    cases name with
    | nil =>
      obtain ⟨rfl, -⟩ := List.cons_prefix_cons.mp hstarts
      exact List.cons_prefix_cons.mpr ⟨rfl, List.nil_prefix⟩
    | cons c name =>
      exact absurd (List.cons_prefix_cons.mp hstarts).1 (hname c List.mem_cons_self).1
  | escaped d h ih =>
    cases name with
    | nil => exact absurd (List.cons_prefix_cons.mp hstarts).1 hq
    | cons c name =>
      exact absurd (List.cons_prefix_cons.mp hstarts).1 (hname c List.mem_cons_self).2
  | plain _ _ h ih =>
    cases name with
    | nil =>
      obtain ⟨rfl, -⟩ := List.cons_prefix_cons.mp hstarts
      exact List.cons_prefix_cons.mpr ⟨rfl, List.nil_prefix⟩
    | cons c name =>
      obtain ⟨rfl, htail⟩ := List.cons_prefix_cons.mp hstarts
      exact List.cons_prefix_cons.mpr
        ⟨rfl, ih (fun d hd => hname d (List.mem_cons_of_mem c hd)) htail⟩

theorem Spells.isInfix_concat (h : Spells quote raw value) {name : List Char} {q : Char}
    (hne : name ≠ []) (hname : ∀ c ∈ name, c ≠ quote ∧ c ≠ '\\') (hq : q ≠ '\\')
    (hescape : unescape q = q) (hoccurs : q :: (name ++ [q]) <:+: raw ++ [quote]) :
    q :: (name ++ [q]) <:+: value ++ [quote] := by
  induction h with
  | nil => exact hoccurs
  | @doubled raw value h ih =>
    rcases List.infix_cons_iff.mp hoccurs with hfirst | hoccurs
    · -- The second quote would be the start of the name.
      obtain ⟨c, name, rfl⟩ := List.exists_cons_of_ne_nil hne
      have hsecond := (List.cons_prefix_cons.mp (List.cons_prefix_cons.mp hfirst).2).1
      exact absurd hsecond (hname c List.mem_cons_self).1
    · rcases List.infix_cons_iff.mp hoccurs with hsecond | hoccurs
      · obtain ⟨rfl, htail⟩ := List.cons_prefix_cons.mp hsecond
        exact (List.cons_prefix_cons.mpr ⟨rfl, h.isPrefix hname hq htail⟩).isInfix
      · exact (ih hoccurs).trans (List.suffix_cons _ _).isInfix
  | @escaped d raw value h ih =>
    rcases List.infix_cons_iff.mp hoccurs with hfirst | hoccurs
    · exact absurd (List.cons_prefix_cons.mp hfirst).1 hq
    · rcases List.infix_cons_iff.mp hoccurs with hsecond | hoccurs
      · obtain ⟨rfl, htail⟩ := List.cons_prefix_cons.mp hsecond
        exact (List.cons_prefix_cons.mpr ⟨hescape.symm, h.isPrefix hname hq htail⟩).isInfix
      · exact (ih hoccurs).trans (List.suffix_cons _ _).isInfix
  | @plain d _ _ raw value h ih =>
    rcases List.infix_cons_iff.mp hoccurs with hfirst | hoccurs
    · obtain ⟨rfl, htail⟩ := List.cons_prefix_cons.mp hfirst
      exact (List.cons_prefix_cons.mpr ⟨rfl, h.isPrefix hname hq htail⟩).isInfix
    · exact (ih hoccurs).trans (List.suffix_cons _ _).isInfix

theorem Spells.isInfix (h : Spells quote raw value) {name : List Char} {q : Char}
    (hne : name ≠ []) (hname : ∀ c ∈ name, c ≠ quote ∧ c ≠ '\\') (hq : q ≠ '\\')
    (hescape : unescape q = q) (hoccurs : q :: (name ++ [q]) <:+: quote :: (raw ++ [quote])) :
    q :: (name ++ [q]) <:+: quote :: (value ++ [quote]) := by
  rcases List.infix_cons_iff.mp hoccurs with hfirst | hoccurs
  · obtain ⟨rfl, htail⟩ := List.cons_prefix_cons.mp hfirst
    exact (List.cons_prefix_cons.mpr ⟨rfl, h.isPrefix hname hq htail⟩).isInfix
  · exact (h.isInfix_concat hne hname hq hescape hoccurs).trans (List.suffix_cons _ _).isInfix

end Spelling

end DocQuery.Lexeme
