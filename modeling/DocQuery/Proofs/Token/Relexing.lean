import DocQuery.Proofs.Token.Quoting
import DocQuery.Proofs.Token.Segmentation

/-! Reading tokens again. A token is read from its own text alone, in front of whatever cannot go on
with it, so that the tokens of a text can be set apart by single spaces. -/

namespace DocQuery.Lexeme

section Locality

variable {c : Char} {text rest value : List Char} {token : Token} {m n : Nat}

/-! ### Numbers -/

theorem digitsLength_of_head (h : ∀ d ∈ rest.head?, d.isDigit = false) :
    digitsLength rest = 0 := by
  cases rest with
  | nil => rfl
  | cons d rest => simp [digitsLength, h d rfl]

theorem digitsLength_take_append (hm : digitsLength text ≤ m)
    (hrest : ∀ d ∈ rest.head?, d.isDigit = false) :
    digitsLength (text.take m ++ rest) = digitsLength text := by
  have hzero : digitsLength rest = 0 := digitsLength_of_head hrest
  induction text generalizing m with
  | nil => simpa [digitsLength] using hzero
  | cons d text ih =>
    by_cases hd : d.isDigit = true
    · have hlength (ds : List Char) : digitsLength (d :: ds) = digitsLength ds + 1 := by
        simp [digitsLength, hd]
      rw [hlength] at hm ⊢
      obtain ⟨k, rfl⟩ := Nat.exists_eq_add_of_le' (show 1 ≤ m by omega)
      rw [List.take_succ_cons, List.cons_append, hlength, ih (by omega)]
    · have hlength (ds : List Char) : digitsLength (d :: ds) = 0 := by simp [digitsLength, hd]
      cases m with
      | zero => rw [List.take_zero, List.nil_append, hlength, hzero]
      | succ k => rw [List.take_succ_cons, List.cons_append, hlength, hlength]

theorem fractionLength_take_append (hm : fractionLength text ≤ m) (hrest : Stops rest) :
    fractionLength (text.take m ++ rest) = fractionLength text := by
  cases m with
  | zero =>
    have hzero : fractionLength rest = 0 :=
      fractionLength_of_head (hrest.head_ne (by decide) (by decide))
    rw [List.take_zero, List.nil_append, hzero]
    omega
  | succ k =>
    cases text with
    | nil => exact fractionLength_of_head (hrest.head_ne (by decide) (by decide))
    | cons d text =>
      rw [List.take_succ_cons, List.cons_append]
      by_cases hd : d = '.'
      · subst hd
        have hpoint (ds : List Char) : fractionLength ('.' :: ds) =
            if digitsLength ds = 0 then 0 else digitsLength ds + 1 := rfl
        rw [hpoint] at hm ⊢
        have hdigits : digitsLength text ≤ k := by
          split at hm <;> omega
        rw [hpoint, digitsLength_take_append hdigits hrest.not_digit]
      · have hnone (ds : List Char) : fractionLength (d :: ds) = 0 :=
          fractionLength_of_head (by simpa using hd)
        rw [hnone, hnone]

theorem Stops.not_sign (h : Stops rest) : ∀ d ∈ rest.head?, ¬ (d = '+' ∨ d = '-') := by
  intro d hd hsign
  rcases hsign with hsign | hsign
  · exact h.head_ne (by decide) (by decide) d hd hsign
  · exact h.head_ne (by decide) (by decide) d hd hsign

def signLength : List Char → Nat
  | d :: _ => if d = '+' ∨ d = '-' then 1 else 0
  | [] => 0

theorem exponentLength_cons (e : Char) (text : List Char) :
    exponentLength (e :: text) =
      if e = 'e' ∨ e = 'E' then
        if digitsLength (text.drop (signLength text)) = 0 then 0
        else digitsLength (text.drop (signLength text)) + signLength text + 1
      else 0 := by
  cases text <;> rfl

theorem signLength_le (text : List Char) : signLength text ≤ text.length := by
  cases text with
  | nil => exact Nat.zero_le _
  | cons d text =>
    simp only [signLength, List.length_cons]
    split <;> omega

theorem signLength_le_one (text : List Char) : signLength text ≤ 1 := by
  unfold signLength
  split
  · split <;> omega
  · omega

theorem signLength_of_stops (h : Stops rest) : signLength rest = 0 := by
  cases rest with
  | nil => rfl
  | cons d rest => exact if_neg (h.not_sign d rfl)

theorem signLength_take_append (hm : signLength text ≤ m) (hrest : Stops rest) :
    signLength (text.take m ++ rest) = signLength text := by
  cases m with
  | zero =>
    rw [List.take_zero, List.nil_append, signLength_of_stops hrest]
    omega
  | succ k =>
    cases text with
    | nil => exact signLength_of_stops hrest
    | cons d text => rfl

theorem drop_take_append (h : m ≤ n) (hm : m ≤ text.length) :
    (text.take n ++ rest).drop m = (text.drop m).take (n - m) ++ rest := by
  rw [List.drop_append_of_le_length (by rw [List.length_take]; omega), List.drop_take]

theorem exponentLength_take_append (hm : exponentLength text ≤ m) (hrest : Stops rest) :
    exponentLength (text.take m ++ rest) = exponentLength text := by
  have hzero : exponentLength rest = 0 := exponentLength_of_head hrest.not_exponent
  cases m with
  | zero =>
    rw [List.take_zero, List.nil_append, hzero]
    omega
  | succ k =>
    cases text with
    | nil => exact hzero
    | cons e text =>
      rw [List.take_succ_cons, List.cons_append]
      rw [exponentLength_cons] at hm ⊢
      rw [exponentLength_cons]
      by_cases he : e = 'e' ∨ e = 'E'
      · rw [if_pos he] at hm
        rw [if_pos he, if_pos he]
        by_cases hsign : signLength text ≤ k
        · have hdigits : digitsLength (text.drop (signLength text)) ≤ k - signLength text := by
            split at hm <;> omega
          rw [signLength_take_append hsign hrest, drop_take_append hsign (signLength_le text),
            digitsLength_take_append hdigits hrest.not_digit]
        · -- Nothing is left of the sign, and `rest` starts with neither a sign nor a digit.
          obtain rfl : k = 0 := by
            have := signLength_le_one text
            omega
          have hdigits : digitsLength (text.drop (signLength text)) = 0 := by
            split at hm <;> omega
          have hnone : digitsLength rest = 0 := digitsLength_of_head hrest.not_digit
          rw [if_pos hdigits, List.take_zero, List.nil_append, signLength_of_stops hrest,
            List.drop_zero, if_pos hnone]
      · rw [if_neg he, if_neg he]

theorem numberLength_take_append (hm : numberLength text ≤ m) (hrest : Stops rest) :
    numberLength (text.take m ++ rest) = numberLength text := by
  have hwhole := digitsLength_le text
  have hfraction := fractionLength_le (text.drop (digitsLength text))
  rw [List.length_drop] at hfraction
  simp only [numberLength] at hm ⊢
  rw [digitsLength_take_append (by omega) hrest.not_digit,
    drop_take_append (by omega) hwhole, fractionLength_take_append (by omega) hrest,
    drop_take_append (by omega) (by omega), exponentLength_take_append (by omega) hrest]

/-! ### Quoted texts -/

theorem readQuoted_take_append {quote : Char} {escapes : Bool}
    (h : readQuoted quote escapes text = .ok (value, n))
    (hrest : ∀ d ∈ rest.head?, d ≠ quote) :
    readQuoted quote escapes (text.take n ++ rest) = .ok (value, n) := by
  fun_induction readQuoted quote escapes text generalizing value n with
  | case1 => cases h
  | case2 =>
    cases h
    exact readQuoted_close hrest escapes
  | case3 => cases h
  | case4 => cases h
  | case5 text ih =>
    obtain ⟨tail, k, hread, rfl, rfl⟩ := consDecoded_eq_ok h
    have htail := ih hread
    rw [List.take_succ_cons, List.take_succ_cons, List.cons_append, List.cons_append,
      readQuoted_doubled, htail]
    rfl
  | case6 d text =>
    cases h
    exact readQuoted_close hrest escapes
  | case7 c d text hc hescape ih =>
    obtain ⟨tail, k, hread, rfl, rfl⟩ := consDecoded_eq_ok h
    have htail := ih hread
    rw [List.take_succ_cons, List.take_succ_cons, List.cons_append, List.cons_append, readQuoted,
      if_neg hc, if_pos hescape, htail]
    rfl
  | case8 c d text hc hescape ih =>
    obtain ⟨tail, k, hread, rfl, rfl⟩ := consDecoded_eq_ok h
    have htail := ih hread
    rw [List.take_succ_cons, List.cons_append, readQuoted_plain hc hescape, htail]
    rfl

theorem quotedToken_take_append {quote : Char} {escapes : Bool} {make : String → Token}
    (h : quotedToken quote escapes make text = .ok (token, n))
    (hrest : ∀ d ∈ rest.head?, d ≠ quote) :
    quotedToken quote escapes make (text.take n ++ rest) = .ok (token, n) := by
  obtain ⟨⟨value, length⟩, hread, h⟩ := Statement.exists_of_bind_eq_ok h
  cases h
  rw [quotedToken, readQuoted_take_append hread hrest]
  rfl

/-! ### Tokens -/

theorem next_less_of_stops (h : Stops rest) :
    next '<' rest = .ok (.lt, 0) ∧ next '<' ('=' :: rest) = .ok (.ltEq, 1) ∧
      next '>' rest = .ok (.gt, 0) := by
  have hequals : ∀ d ∈ rest.head?, d ≠ '=' := h.head_ne (by decide) (by decide)
  have hgreater : ∀ d ∈ rest.head?, d ≠ '>' := h.head_ne (by decide) (by decide)
  cases rest with
  | nil => exact ⟨rfl, rfl, rfl⟩
  | cons d rest =>
    have hd := hequals d rfl
    have hd' := hgreater d rfl
    simp [next, hd, hd']

/-- A token does not depend on what follows it, as long as this goes on with nothing of it. -/
theorem next_take_append (h : next c text = .ok (token, n)) (hrest : Stops rest) :
    next c (text.take n ++ rest) = .ok (token, n) := by
  have hnotDigit : digitsLength rest = 0 := digitsLength_of_head hrest.not_digit
  obtain ⟨hlt, hltEq, hgt⟩ := next_less_of_stops hrest
  fun_cases next c text
  -- A point, alone or in front of a number.
  case case5 hdigits =>
    rw [next, if_pos hdigits] at h
    cases h
    rw [List.take_zero, List.nil_append, next, if_pos hnotDigit]
  case case6 hdigits _ =>
    rw [next, if_neg hdigits] at h
    cases h
    have hle : digitsLength text ≤ numberLength text := by
      simp only [numberLength]
      omega
    have hnumber : (text.take (numberLength text) ++ rest).take (numberLength text) =
        text.take (numberLength text) :=
      List.take_left' (List.length_take_of_le (numberLength_le text))
    simp only [next, digitsLength_take_append hle hrest.not_digit, if_neg hdigits,
      numberLength_take_append (Nat.le_refl _) hrest, hnumber]
  -- `<=`, `<` and `>` are the tokens that could go on with what follows them.
  case case14 =>
    simp only [next] at h
    cases h
    exact hltEq
  case case16 =>
    simp only [next] at h
    cases h
    exact hlt
  case case18 =>
    simp only [next] at h
    cases h
    exact hgt
  -- A quoted text would go on if its quote followed once more.
  case case25 =>
    simp only [next] at h ⊢
    exact quotedToken_take_append h (hrest.head_ne (by decide) (by decide))
  case case26 =>
    simp only [next] at h ⊢
    exact quotedToken_take_append h (hrest.head_ne (by decide) (by decide))
  case case27 =>
    simp only [next] at h ⊢
    exact quotedToken_take_append h (hrest.head_ne (by decide) (by decide))
  -- Numbers and names go on with characters of their own class, of which `rest` has none in front.
  case case28 hdigit _ =>
    rw [next_of_isDigit hdigit] at h
    cases h
    have hnumber : c :: (text.take (numberLength (c :: text) - 1) ++ rest) =
        (c :: text).take (numberLength (c :: text)) ++ rest := by
      rw [← take_numberLength_pred hdigit, List.cons_append]
    rw [next_of_isDigit hdigit, hnumber, numberLength_take_append (Nat.le_refl _) hrest,
      List.take_left' (List.length_take_of_le (numberLength_le _))]
  case case29 hstart _ =>
    rw [next_of_isNameStart hstart] at h
    cases h
    have hname := List.prefix_iff_eq_take.mp (List.takeWhile_prefix isNameChar (l := text))
    have hword : (text.takeWhile isNameChar ++ rest).takeWhile isNameChar =
        text.takeWhile isNameChar :=
      takeWhile_append_of_head (List.all_eq_true.mp List.all_takeWhile)
        (hrest.not_class (fun _ => isBlank_of_isNameChar) (by decide))
    rw [← hname, next_of_isNameStart hstart, hword]
  case case30 hdigit hstart => simp_all [next]
  all_goals
    simp only [next] at h
    cases h <;> rfl

theorem isBlank_of_next (h : next c text = .ok (token, n)) : isBlank c = false := by
  fun_cases next c text
  case case28 hdigit _ => exact isBlank_of_isDigit hdigit
  case case29 hstart _ => exact isBlank_of_isNameStart hstart
  case case30 hdigit hstart => simp_all [next]
  all_goals decide

/-- A token that stands in front of something else can also stand at the end, or in front of a
blank. -/
theorem reads_of_next {before after : List Char}
    (h : next c (text ++ before) = .ok (token, text.length)) (hafter : Stops after) :
    Reads (c :: text) token after := by
  have hnext := next_take_append h hafter
  rw [List.take_left] at hnext
  -- A minus and a slash are tokens of one character, so no comment starts with them here.
  have hsingle : c ∈ ['-', '/'] → text = [] := by
    intro hc
    simp only [List.mem_cons, List.not_mem_nil, or_false] at hc
    rcases hc with rfl | rfl
    · exact List.length_eq_zero_iff.mp (Prod.mk.inj (Except.ok.inj h)).2.symm
    · exact List.length_eq_zero_iff.mp (Prod.mk.inj (Except.ok.inj h)).2.symm
  refine .intro (isBlank_of_next h) (fun d hd => ⟨?_, ?_⟩) hnext
  · rintro ⟨rfl, rfl⟩
    rw [hsingle (by simp), List.nil_append] at hd
    exact hafter.head_ne (by decide) (by decide) _ hd rfl
  · rintro ⟨rfl, rfl⟩
    rw [hsingle (by simp), List.nil_append] at hd
    exact hafter.head_ne (by decide) (by decide) _ hd rfl

end Locality

/-! ### Single spaces between the tokens -/

/-- The lexemes with the given gap before the first and a space before each of the others. -/
def spaced (gap : List Char) : List Lexeme → List Lexeme
  | [] => []
  | l :: ls => ⟨gap, l.text, l.token⟩ :: spaced [' '] ls

theorem map_token_spaced (gap : List Char) (ls : List Lexeme) :
    (spaced gap ls).map (·.token) = ls.map (·.token) := by
  induction ls generalizing gap with
  | nil => rfl
  | cons l ls ih => simp [spaced, ih]

theorem source_spaced (gap : List Char) {ls : List Lexeme} (h : ls ≠ []) :
    source (spaced gap ls) = gap ++ Text.unwords (ls.map (·.text)) := by
  induction ls generalizing gap with
  | nil => exact absurd rfl h
  | cons l ls ih =>
    cases ls with
    | nil => simp [spaced, Text.unwords]
    | cons m ls =>
      have htail := ih [' '] (by simp)
      rw [spaced, source_cons, htail]
      simp [Text.unwords, List.intercalate_cons_cons]

theorem stops_source_spaced (ls : List Lexeme) : Stops (source (spaced [' '] ls)) := by
  cases ls with
  | nil => simp [Stops, spaced]
  | cons l ls =>
    intro c hc
    obtain rfl : ' ' = c := by simpa [spaced] using hc
    exact .inl (by decide)

theorem Segmented.scans_spaced {ls : List Lexeme} (h : Segmented ls) {gap : List Char}
    (hgap : ∀ c ∈ gap, isBlank c = true) : Scans (spaced gap ls.dropLast) [] := by
  induction h generalizing gap with
  | last => trivial
  | @cons _ text c token ls _ next_eq tail ih =>
    have hne : ls ≠ [] := by
      obtain ⟨before, last, rfl, -⟩ := tail.exists_last
      simp
    rw [List.dropLast_cons_of_ne_nil hne]
    refine ⟨hgap, reads_of_next next_eq ?_, ih (by decide)⟩
    rw [List.append_nil]
    exact stops_source_spaced _

theorem Segmented.token_getLast {ls : List Lexeme} (h : Segmented ls) :
    ls.map (·.token) = ls.dropLast.map (·.token) ++ [Token.eof] := by
  obtain ⟨before, gap, rfl, -⟩ := h.exists_last
  simp

theorem all_unwords {ls : List Lexeme} (h : Segmented ls) :
    all (Text.unwords (ls.dropLast.map (·.text))) =
      .ok (spaced [] ls.dropLast ++ [⟨[], [], .eof⟩]) := by
  by_cases hne : ls.dropLast = []
  · rw [hne]
    exact all_nil
  · have hgap : ∀ c ∈ ([] : List Char), isBlank c = true := by simp
    have hall := all_source (h.scans_spaced hgap)
    rw [List.append_nil, source_spaced [] hne, List.nil_append, all_nil] at hall
    exact hall

/-! ### Slices -/

theorem extract_of_mem_spans {ls : List Lexeme} {s : Nat × Nat × Lexeme} (hs : s ∈ spans 0 ls) :
    (source ls).extract s.1 s.2.1 = s.2.2.text := by
  obtain ⟨front, l, back, rfl, rfl⟩ := exists_of_mem_spans hs
  exact extract_spanAfter front back l

theorem map_extract_spans (ls : List Lexeme) :
    (spans 0 ls).map (fun s => (source ls).extract s.1 s.2.1) = ls.map (·.text) := by
  calc (spans 0 ls).map (fun s => (source ls).extract s.1 s.2.1)
      = (spans 0 ls).map (fun s => s.2.2.text) :=
        List.map_congr_left fun _ hs => extract_of_mem_spans hs
    _ = ((spans 0 ls).map (·.2.2)).map (·.text) := by rw [List.map_map]; rfl
    _ = ls.map (·.text) := by rw [map_spans]

/-- The source under each span but the last, which is that of the end of the text. -/
def slices (sql : String) (ls : List Lexeme) : List (List Char) :=
  (spans 0 ls).dropLast.map fun s => sql.toList.extract s.1 s.2.1

/-- The slices of the tokens, joined by single spaces, have the same tokens. -/
theorem ofSource_unwords_slices {sql : String} {ls : List Lexeme} (h : ofSource sql = .ok ls) :
    ∃ ms, ofSource (String.ofList (Text.unwords (slices sql ls))) = .ok ms ∧
      ms.map (·.token) = ls.map (·.token) := by
  obtain ⟨hsource, hls⟩ := segmented_of_all (ofSource_eq_ok_iff.mp h)
  have hslices : slices sql ls = ls.dropLast.map (·.text) := by
    rw [slices, ← hsource, List.map_dropLast, map_extract_spans, List.map_dropLast]
  refine ⟨spaced [] ls.dropLast ++ [⟨[], [], .eof⟩], ?_, ?_⟩
  · rw [hslices, ofSource, String.toList_ofList, all_unwords hls]
  · rw [hls.token_getLast, List.map_append, map_token_spaced]
    rfl

theorem ofSource_unwords_slices_dense :
    let sql := "x<=>.5e3-1.e/*c*/@a'it''s'"
    let ls : List Lexeme :=
      [⟨[], ['x'], .word "x"⟩, ⟨[], "<=>".toList, .nullSafeEq⟩, ⟨[], ".5e3".toList, .number "0.5e3"⟩,
        ⟨[], ['-'], .minus⟩, ⟨[], ['1'], .number "1"⟩, ⟨[], ['.'], .dot⟩, ⟨[], ['e'], .word "e"⟩,
        ⟨"/*c*/".toList, "@a".toList, .word "@a"⟩, ⟨[], "'it''s'".toList, .string "it's" .single⟩,
        ⟨[], [], .eof⟩]
    ofSource sql = .ok ls ∧
      Text.unwords (slices sql ls) = "x <=> .5e3 - 1 . e @a 'it''s'".toList ∧
      ∃ ms, ofSource "x <=> .5e3 - 1 . e @a 'it''s'" = .ok ms ∧
        ms.map (·.token) = ls.map (·.token) := by
  intro sql ls
  have hls : ofSource sql = .ok ls := Statement.eq_ok_of_toOption (by decide +kernel)
  have hslices : Text.unwords (slices sql ls) = "x <=> .5e3 - 1 . e @a 'it''s'".toList := by
    decide
  have hagain := ofSource_unwords_slices hls
  rw [hslices, String.ofList_toList] at hagain
  exact ⟨hls, hslices, hagain⟩

end DocQuery.Lexeme
