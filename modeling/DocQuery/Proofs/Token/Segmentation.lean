import DocQuery.Proofs.Token.Brackets
import Mathlib.Data.List.Induction

/-! The lexemes of a text cut it up. Each token is read where its span starts and takes up the whole
of it, and in front of it there are only blanks and comments. -/

namespace DocQuery.Lexeme

/-! ### Gaps -/

/-- Blanks and comments in front of `rest`. A comment may lack its end only at the end of the text. -/
inductive IsGap (rest : List Char) : List Char → Prop where
  | nil : IsGap rest []
  | blank {c : Char} {gap : List Char} (is_blank : isBlank c = true) (tail : IsGap rest gap) :
    IsGap rest (c :: gap)
  | line (body : List Char) {gap : List Char} (within : '\n' ∉ body) (tail : IsGap rest gap) :
    IsGap rest ('-' :: '-' :: (body ++ '\n' :: gap))
  | lastLine {body : List Char} (within : '\n' ∉ body) (at_end : rest = []) :
    IsGap rest ('-' :: '-' :: body)
  | block (body : List Char) {gap : List Char} (within : ¬ ['*', '/'] <:+: body ++ ['*'])
    (tail : IsGap rest gap) : IsGap rest ('/' :: '*' :: (body ++ '*' :: '/' :: gap))
  | openBlock {body : List Char} (within : ¬ ['*', '/'] <:+: body) (at_end : rest = []) :
    IsGap rest ('/' :: '*' :: body)

/-- What has been read of the comment that a state is in. -/
def GapState.opening : GapState → List Char
  | blanks => []
  | line => ['-', '-']
  | block => ['/', '*']

variable {rest gap : List Char} {c : Char}

theorem IsGap.cons_line (hc : c ≠ '\n') (h : IsGap rest ('-' :: '-' :: gap)) :
    IsGap rest ('-' :: '-' :: c :: gap) := by
  cases h with
  | blank is_blank => exact absurd is_blank (by decide)
  | line body within tail => exact .line (c :: body) (by simp [hc.symm, within]) tail
  | lastLine within at_end => exact .lastLine (by simp [hc.symm, within]) at_end

theorem not_isInfix_cons {close body : List Char} (hc : ¬ close <+: c :: body)
    (h : ¬ close <:+: body) : ¬ close <:+: c :: body := by
  rw [List.infix_cons_iff]
  exact fun hor => hor.elim hc h

theorem IsGap.cons_block (hc : ¬ ['*', '/'] <+: c :: gap) (h : IsGap rest ('/' :: '*' :: gap)) :
    IsGap rest ('/' :: '*' :: c :: gap) := by
  cases h with
  | blank is_blank => exact absurd is_blank (by decide)
  | @block body gap within tail =>
    refine .block (c :: body) (not_isInfix_cons (fun hpre => hc ?_) within) tail
    have hclosed : c :: (body ++ ['*']) <+: c :: (body ++ '*' :: '/' :: gap) := by simp
    exact hpre.trans hclosed
  | openBlock within at_end => exact .openBlock (not_isInfix_cons hc within) at_end

theorem splitGap_append_eq (state : GapState) (text : List Char) :
    (splitGap state text).1 ++ (splitGap state text).2 = text := by
  fun_induction splitGap state text <;> simp_all

theorem isGap_splitGap (state : GapState) (text : List Char) :
    IsGap (splitGap state text).2 (state.opening ++ (splitGap state text).1) := by
  fun_induction splitGap state text with
  -- The text ends here, perhaps inside a comment.
  | case1 state =>
    cases state with
    | blanks => exact .nil
    | line => exact .lastLine (by simp) rfl
    | block => exact .openBlock (by decide) rfl
  | case2 c hc => exact .blank hc .nil
  | case3 c hc => exact .nil
  | case4 c d text hc gap rest hsplit ih =>
    rw [hsplit] at ih
    exact .blank hc ih
  | case5 c d text _ hline gap rest hsplit ih =>
    rw [hsplit] at ih
    rw [hline.1, hline.2]
    exact ih
  | case6 c d text _ _ hblock gap rest hsplit ih =>
    rw [hsplit] at ih
    rw [hblock.1, hblock.2]
    exact ih
  | case7 => exact .nil
  -- Inside a comment that ends with the line.
  | case8 c text gap rest hsplit ih =>
    rw [hsplit] at ih
    by_cases hc : c = '\n'
    · rw [if_pos hc] at ih
      rw [hc]
      exact .line [] (by simp) ih
    · rw [if_neg hc] at ih
      exact IsGap.cons_line hc ih
  -- Inside a comment that ends with `*/`.
  | case9 c => exact .openBlock (by simp [List.infix_cons_iff]) rfl
  | case10 c d text hclose gap rest hsplit ih =>
    rw [hsplit] at ih
    rw [hclose.1, hclose.2]
    exact .block [] (by decide) ih
  | case11 c d text hclose gap rest hsplit ih =>
    have happend := splitGap_append_eq .block (d :: text)
    rw [hsplit] at ih happend
    refine IsGap.cons_block (fun hpre => hclose ?_) ih
    have hlong : ['*', '/'] <+: c :: (gap ++ rest) := hpre.trans (by simp)
    rw [happend] at hlong
    simpa [eq_comm] using hlong

/-! ### Tokens -/

theorem digitsLength_le (text : List Char) : digitsLength text ≤ text.length :=
  (List.takeWhile_sublist _).length_le

theorem fractionLength_le (text : List Char) : fractionLength text ≤ text.length := by
  fun_cases fractionLength text with
  | case1 text => simp
  | case2 text =>
    have := digitsLength_le text
    simpa
  | case3 => simp

theorem exponentLength_le (text : List Char) : exponentLength text ≤ text.length := by
  fun_cases exponentLength text <;> grind [digitsLength_le]

theorem numberLength_le (text : List Char) : numberLength text ≤ text.length := by
  have hwhole := digitsLength_le text
  have hfraction := fractionLength_le (text.drop (digitsLength text))
  have hexponent := exponentLength_le
    (text.drop (digitsLength text + fractionLength (text.drop (digitsLength text))))
  simp only [List.length_drop] at hfraction hexponent
  simp only [numberLength]
  omega

theorem length_le_of_readQuoted {quote : Char} {escapes : Bool} {text value : List Char} {n : Nat}
    (h : readQuoted quote escapes text = .ok (value, n)) : n ≤ text.length := by
  fun_induction readQuoted quote escapes text generalizing value n with
  | case1 => cases h
  | case2 => cases h; simp
  | case3 => cases h
  | case4 => cases h
  | case5 text ih =>
    obtain ⟨tail, m, hread, rfl, rfl⟩ := consDecoded_eq_ok h
    simpa using ih hread
  | case6 d text => cases h; simp
  | case7 c d text hc hescape ih =>
    obtain ⟨tail, m, hread, rfl, rfl⟩ := consDecoded_eq_ok h
    simpa using ih hread
  | case8 c d text hc hescape ih =>
    obtain ⟨tail, m, hread, rfl, rfl⟩ := consDecoded_eq_ok h
    simpa using ih hread

theorem length_le_of_quotedToken {quote : Char} {escapes : Bool} {make : String → Token}
    {text : List Char} {token : Token} {n : Nat}
    (h : quotedToken quote escapes make text = .ok (token, n)) : n ≤ text.length := by
  obtain ⟨⟨value, length⟩, hread, h⟩ := Statement.exists_of_bind_eq_ok h
  cases h
  exact length_le_of_readQuoted hread

theorem length_le_of_next {text : List Char} {token : Token} {n : Nat}
    (h : next c text = .ok (token, n)) : n ≤ text.length := by
  fun_cases next c text
  case case5 hdigits =>
    rw [next, if_pos hdigits] at h
    cases h
    exact Nat.zero_le _
  case case6 hdigits _ =>
    rw [next, if_neg hdigits] at h
    cases h
    exact numberLength_le text
  case case25 =>
    simp only [next] at h
    exact length_le_of_quotedToken h
  case case26 =>
    simp only [next] at h
    exact length_le_of_quotedToken h
  case case27 =>
    simp only [next] at h
    exact length_le_of_quotedToken h
  case case28 hdigit _ =>
    rw [next_of_isDigit hdigit] at h
    cases h
    have hle := numberLength_le (c :: text)
    rw [List.length_cons] at hle
    omega
  case case29 hstart _ =>
    rw [next_of_isNameStart hstart] at h
    cases h
    exact (List.takeWhile_sublist _).length_le
  case case30 hdigit hstart => simp_all [next]
  all_goals
    simp only [next] at h
    cases h <;> simp

theorem ne_eof_of_next {text : List Char} {token : Token} {n : Nat}
    (h : next c text = .ok (token, n)) : token ≠ .eof := by
  rintro rfl
  fun_cases next c text <;> simp_all [next, quotedToken_ne]

/-! ### Lexemes -/

/-- Every lexeme but the last is a token that is read in front of what follows it, and the last one
is the end of the text. -/
inductive Segmented : List Lexeme → Prop where
  | last {gap : List Char} (isGap : IsGap [] gap) : Segmented [⟨gap, [], .eof⟩]
  | cons {gap text : List Char} {c : Char} {token : Token} {ls : List Lexeme}
    (isGap : IsGap (c :: text ++ source ls) gap)
    (next_eq : next c (text ++ source ls) = .ok (token, text.length)) (tail : Segmented ls) :
    Segmented (⟨gap, c :: text, token⟩ :: ls)

theorem segmented_of_all {text : List Char} {ls : List Lexeme} (h : all text = .ok ls) :
    source ls = text ∧ Segmented ls := by
  induction text using all.induct generalizing ls with
  | case1 text gap hsplit =>
    have happend := splitGap_append_eq .blanks text
    have hgap := isGap_splitGap .blanks text
    rw [hsplit] at happend hgap
    have hls : ls = [⟨gap, [], .eof⟩] := by
      rw [all] at h
      split at h <;> simp_all
    subst hls
    exact ⟨by simpa using happend, .last hgap⟩
  | case2 text gap c rest hsplit fault hfault =>
    rw [all] at h
    split at h <;> simp_all
  | case3 text gap c rest hsplit token n htoken e hrest ih =>
    rw [all] at h
    split at h <;> simp_all
  | case4 text gap c rest hsplit token n htoken lexemes hrest ih =>
    have happend := splitGap_append_eq .blanks text
    have hgap := isGap_splitGap .blanks text
    rw [hsplit] at happend hgap
    have hls : ls = ⟨gap, c :: rest.take n, token⟩ :: lexemes := by
      rw [all] at h
      split at h <;> simp_all
    subst hls
    obtain ⟨hsource, htail⟩ := ih hrest
    have hcut : rest.take n ++ source lexemes = rest := by rw [hsource, List.take_append_drop]
    have hlength : (rest.take n).length = n := List.length_take_of_le (length_le_of_next htoken)
    refine ⟨?_, .cons ?_ ?_ htail⟩
    · simpa [hcut] using happend
    · rw [List.cons_append, hcut]
      exact hgap
    · rw [hcut, hlength]
      exact htoken

theorem Segmented.of_append {before after : List Lexeme} {l : Lexeme}
    (h : Segmented (before ++ l :: after)) : Segmented (l :: after) := by
  induction before with
  | nil => exact h
  | cons first before ih =>
    apply ih
    rw [List.cons_append] at h
    generalize hls : before ++ l :: after = ls at h ⊢
    cases h with
    | last isGap => simp at hls
    | cons isGap next_eq tail => exact tail

theorem Segmented.exists_last {ls : List Lexeme} (h : Segmented ls) :
    ∃ (before : List Lexeme) (gap : List Char), ls = before ++ [⟨gap, [], .eof⟩] ∧
      ∀ l ∈ before, l.token ≠ .eof := by
  induction h with
  | last isGap => exact ⟨[], _, rfl, by simp⟩
  | cons isGap next_eq tail ih =>
    obtain ⟨before, gap, rfl, hbefore⟩ := ih
    refine ⟨_ :: before, gap, rfl, ?_⟩
    simpa using ⟨ne_eof_of_next next_eq, hbefore⟩

/-! ### Spans -/

theorem spans_append (start : Nat) (ls ms : List Lexeme) :
    spans start (ls ++ ms) = spans start ls ++ spans (start + (source ls).length) ms := by
  induction ls generalizing start with
  | nil => rfl
  | cons l ls ih =>
    simp only [List.cons_append, spans, ih, source_cons, List.length_append, Nat.add_assoc]

/-- The span of a lexeme that stands behind the lexemes `before`. -/
def spanAfter (before : List Lexeme) (l : Lexeme) : Nat × Nat × Lexeme :=
  ((source before ++ l.gap).length, (source (before ++ [l])).length, l)

theorem spans_split (before after : List Lexeme) (l : Lexeme) :
    spans 0 (before ++ l :: after) =
      spans 0 before ++ spanAfter before l :: spans (source (before ++ [l])).length after := by
  simp [spans_append, spans, spanAfter, Nat.add_assoc]

theorem map_spans (start : Nat) (ls : List Lexeme) : (spans start ls).map (·.2.2) = ls := by
  induction ls generalizing start with
  | nil => rfl
  | cons l ls ih => simp [spans, ih]

theorem getElem?_spans (front back : List Lexeme) (l : Lexeme) :
    (spans 0 (front ++ l :: back))[front.length]? = some (spanAfter front l) := by
  have hlength : (spans 0 front).length = front.length := by
    rw [← List.length_map (·.2.2), map_spans]
  rw [spans_split, List.getElem?_append_right (by omega), hlength, Nat.sub_self]
  rfl

theorem le_of_mem_spans {start : Nat} {ls : List Lexeme} :
    ∀ s ∈ spans start ls, start ≤ s.1 ∧ s.1 ≤ s.2.1 := by
  induction ls generalizing start with
  | nil => simp [spans]
  | cons l ls ih =>
    intro s hs
    rcases List.mem_cons.mp hs with rfl | hs
    · exact ⟨by simp, by simp⟩
    · have := ih s hs
      omega

theorem pairwise_spans (start : Nat) (ls : List Lexeme) :
    (spans start ls).Pairwise fun s t => s.2.1 ≤ t.1 := by
  induction ls generalizing start with
  | nil => exact .nil
  | cons l ls ih => exact .cons (fun s hs => (le_of_mem_spans s hs).1) (ih _)

theorem exists_of_spans_eq {ls : List Lexeme} {before after : List (Nat × Nat × Lexeme)}
    {s : Nat × Nat × Lexeme} (h : spans 0 ls = before ++ s :: after) :
    ∃ front l back, ls = front ++ l :: back ∧ before = spans 0 front ∧ s = spanAfter front l := by
  have hlt : before.length < ls.length := by
    have hlength := congrArg List.length (map_spans 0 ls)
    simp only [h, List.length_map, List.length_append, List.length_cons] at hlength
    omega
  have hls : ls = ls.take before.length ++ ls[before.length] :: ls.drop (before.length + 1) := by
    simp
  rw [hls, spans_split] at h
  have hlength := congrArg List.length (map_spans 0 (ls.take before.length))
  rw [List.length_map, List.length_take_of_le (by omega)] at hlength
  obtain ⟨hbefore, hs⟩ := List.append_inj h hlength
  exact ⟨_, _, _, hls, hbefore.symm, (List.cons.inj hs).1.symm⟩

def lastEnd (spans : List (Nat × Nat × Lexeme)) : Nat :=
  (spans.getLast?.map (·.2.1)).getD 0

theorem lastEnd_spans (ls : List Lexeme) : lastEnd (spans 0 ls) = (source ls).length := by
  induction ls using List.reverseRecOn with
  | nil => rfl
  | append_singleton ls l => simp [spans_append, spans, lastEnd, Nat.add_assoc]

/-- The spans cut up the text. -/
structure Segments (text : List Char) (spans : List (Nat × Nat × Lexeme)) : Prop where
  /-- The last token and no other is the end of the text, and it is empty. -/
  ends : ∃ before l, spans = before ++ [(text.length, text.length, l)] ∧ l.token = .eof ∧
    ∀ s ∈ before, s.2.2.token ≠ .eof
  within : ∀ s ∈ spans, s.1 ≤ s.2.1 ∧ s.2.1 ≤ text.length
  ordered : spans.Pairwise fun s t => s.2.1 ≤ t.1
  nonempty : ∀ s ∈ spans, s.2.2.token ≠ .eof → s.1 < s.2.1
  slices : ∀ s ∈ spans, text.extract s.1 s.2.1 = s.2.2.text
  /-- A token is what is read at its start, and its span is all that is read for it. -/
  reads : ∀ s ∈ spans, s.2.2.token ≠ .eof → ∃ c rest, text.drop s.1 = c :: rest ∧
    next c rest = .ok (s.2.2.token, s.2.1 - s.1 - 1)
  gaps : ∀ before s after, spans = before ++ s :: after →
    IsGap (text.drop s.1) (text.extract (lastEnd before) s.1)

theorem drop_spanAfter (front back : List Lexeme) (l : Lexeme) :
    (source (front ++ l :: back)).drop (spanAfter front l).1 = l.text ++ source back := by
  simp [spanAfter, List.drop_append]

theorem extract_spanAfter (front back : List Lexeme) (l : Lexeme) :
    (source (front ++ l :: back)).extract (spanAfter front l).1 (spanAfter front l).2.1 = l.text := by
  have hlength : (spanAfter front l).2.1 - (spanAfter front l).1 = l.text.length := by
    simp [spanAfter]
    omega
  rw [List.extract, drop_spanAfter, hlength, List.take_left]

theorem extract_gap (front back : List Lexeme) (l : Lexeme) :
    (source (front ++ l :: back)).extract (source front).length (spanAfter front l).1 = l.gap := by
  simp [spanAfter]

theorem exists_of_mem_spans {ls : List Lexeme} {s : Nat × Nat × Lexeme} (h : s ∈ spans 0 ls) :
    ∃ front l back, ls = front ++ l :: back ∧ s = spanAfter front l := by
  obtain ⟨before, after, hsplit⟩ := List.append_of_mem h
  obtain ⟨front, l, back, hls, -, hs⟩ := exists_of_spans_eq hsplit
  exact ⟨front, l, back, hls, hs⟩

theorem Segmented.ends {ls : List Lexeme} (h : Segmented ls) :
    ∃ (before : List (Nat × Nat × Lexeme)) (l : Lexeme),
      spans 0 ls = before ++ [((source ls).length, (source ls).length, l)] ∧
      l.token = .eof ∧ ∀ s ∈ before, s.2.2.token ≠ .eof := by
  obtain ⟨before, gap, rfl, hbefore⟩ := h.exists_last
  refine ⟨spans 0 before, ⟨gap, [], .eof⟩, by simp [spans_split, spanAfter, spans], rfl, ?_⟩
  intro s hs
  apply hbefore
  rw [← map_spans 0 before]
  exact List.mem_map_of_mem hs

theorem Segmented.reads {front back : List Lexeme} {l : Lexeme}
    (h : Segmented (front ++ l :: back)) (heof : l.token ≠ .eof) :
    ∃ c text, l.text = c :: text ∧ next c (text ++ source back) = .ok (l.token, text.length) := by
  cases h.of_append with
  | last isGap => exact absurd rfl heof
  | cons isGap next_eq tail => exact ⟨_, _, rfl, next_eq⟩

theorem Segmented.isGap {front back : List Lexeme} {l : Lexeme}
    (h : Segmented (front ++ l :: back)) : IsGap (l.text ++ source back) l.gap := by
  cases h.of_append with
  | last isGap => exact isGap
  | cons isGap next_eq tail => exact isGap

/-- The tokens of a text and the gaps between them follow each other without a break from its start
to its end. -/
theorem segments_of_ofSource {sql : String} {ls : List Lexeme} (h : ofSource sql = .ok ls) :
    Segments sql.toList (spans 0 ls) := by
  obtain ⟨hsource, hls⟩ := segmented_of_all (ofSource_eq_ok_iff.mp h)
  rw [← hsource]
  constructor
  case ends => exact hls.ends
  case ordered => exact pairwise_spans 0 ls
  case within =>
    intro s hs
    obtain ⟨front, l, back, rfl, rfl⟩ := exists_of_mem_spans hs
    exact ⟨(le_of_mem_spans _ hs).2, by simp [spanAfter]⟩
  case slices =>
    intro s hs
    obtain ⟨front, l, back, rfl, rfl⟩ := exists_of_mem_spans hs
    exact extract_spanAfter front back l
  case nonempty =>
    intro s hs heof
    obtain ⟨front, l, back, rfl, rfl⟩ := exists_of_mem_spans hs
    obtain ⟨c, text, htext, -⟩ := hls.reads heof
    simp [spanAfter, htext]
  case reads =>
    intro s hs heof
    obtain ⟨front, l, back, rfl, rfl⟩ := exists_of_mem_spans hs
    obtain ⟨c, text, htext, hnext⟩ := hls.reads heof
    have hlength : (spanAfter front l).2.1 - (spanAfter front l).1 - 1 = text.length := by
      simp [spanAfter, htext]
      omega
    refine ⟨c, text ++ source back, by rw [drop_spanAfter, htext, List.cons_append], ?_⟩
    rw [hlength]
    exact hnext
  case gaps =>
    intro before s after hsplit
    obtain ⟨front, l, back, rfl, rfl, rfl⟩ := exists_of_spans_eq hsplit
    rw [drop_spanAfter, lastEnd_spans, extract_gap]
    exact hls.isGap

/-- A comment before the first token, and one behind the last that is never closed. -/
theorem segments_of_ofSource_comments :
    let sql := "-- note\nage >= 12 /* open"
    let ls : List Lexeme :=
      [⟨"-- note\n".toList, "age".toList, .word "age"⟩, ⟨[' '], ['>', '='], .gtEq⟩,
        ⟨[' '], ['1', '2'], .number "12"⟩, ⟨" /* open".toList, [], .eof⟩]
    ofSource sql = .ok ls ∧
      (spans 0 ls).map (fun s => (s.1, s.2.1)) = [(8, 11), (12, 14), (15, 17), (25, 25)] ∧
      Segments sql.toList (spans 0 ls) := by
  intro sql ls
  have hls : ofSource sql = .ok ls := Statement.eq_ok_of_toOption (by decide +kernel)
  exact ⟨hls, by decide, segments_of_ofSource hls⟩

end DocQuery.Lexeme
