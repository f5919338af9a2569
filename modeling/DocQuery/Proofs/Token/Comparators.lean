import DocQuery.Proofs.Respacing.Lists
import DocQuery.Proofs.Token.Relexing

/-! The comparators of a text, found in two ways. With blanks put around them they are words of
their own, and these words are the texts of the comparison tokens. -/

namespace DocQuery

def Token.isComparison : Token → Bool
  | eq => true
  | notEq _ => true
  | nullSafeEq => true
  | lt => true
  | ltEq => true
  | gt => true
  | gtEq => true
  | _ => false

namespace Lexeme

open Comparison (spaceComparators)
open Text (words)
open Where (isComparatorChar)

def comparators : List (List Char) :=
  ["<=>".toList, "<=".toList, ">=".toList, "<>".toList, "!=".toList, ['<'], ['>'], ['=']]

/-- The words of a text that are comparators, after blanks have been put around them. -/
def comparatorWords (text : List Char) : List (List Char) :=
  (words (spaceComparators text)).filter comparators.contains

theorem isBlank_space : isBlank ' ' = true := by decide

theorem dropBlanks_spaceComparators (text : List Char) :
    Text.dropBlanks (spaceComparators text) = Text.dropBlanks text := by
  fun_induction spaceComparators text with
  | case9 c text _ _ _ _ _ _ _ _ ih =>
    by_cases hc : isBlank c = true
    · simpa [Text.dropBlanks, hc] using ih
    · simpa [Text.dropBlanks, hc] using ih
  | case10 => rfl
  | _ =>
    rename_i ih
    simpa +decide [Text.dropBlanks, List.filter_cons, isBlank_space] using ih

/-! ### Words that are no comparators -/

theorem any_isMark_of_mem_comparators : ∀ word ∈ comparators, word.any Twin.isMark = true := by
  decide

/-- Every mark comes out behind a blank, so the first word has none. -/
theorem not_isMark_of_mem_takeWhile (text : List Char) :
    ∀ c ∈ (spaceComparators text).takeWhile (!isBlank ·), Twin.isMark c = false := by
  fun_induction spaceComparators text with
  | case9 c text _ _ _ _ _ hlt hgt heq ih =>
    intro d hd
    rw [List.takeWhile_cons] at hd
    split at hd
    · rcases List.mem_cons.mp hd with rfl | hd
      · simpa [Twin.isMark] using ⟨⟨hlt, hgt⟩, heq⟩
      · exact ih d hd
    · cases hd
  | case10 => simp
  | _ => simp [isBlank_space]

theorem filter_words {text : List Char}
    (h : ∀ c ∈ text.takeWhile (!isBlank ·), Twin.isMark c = false) :
    (words text).filter comparators.contains =
      (words (text.dropWhile (!isBlank ·))).filter comparators.contains := by
  have hsplit := List.takeWhile_append_dropWhile (p := (!isBlank ·)) (l := text)
  have hhead : ∀ c ∈ (text.dropWhile (!isBlank ·)).head?, isBlank c = true := by
    intro c hc
    have hnot := List.head?_dropWhile_not (!isBlank ·) text
    rw [hc] at hnot
    simpa using hnot
  have hblank : ∀ c ∈ text.takeWhile (!isBlank ·), isBlank c = false := by
    simpa using List.all_eq_true.mp (List.all_takeWhile (p := (!isBlank ·)) (l := text))
  generalize text.takeWhile (!isBlank ·) = word at h hsplit hblank
  generalize text.dropWhile (!isBlank ·) = rest at hsplit hhead
  by_cases hword : word = []
  · rw [← hsplit, hword, List.nil_append]
  · have hnot : ¬ comparators.contains word = true := by
      rw [List.contains_iff_mem]
      intro hmem
      obtain ⟨c, hc, hmark⟩ := List.any_eq_true.mp (any_isMark_of_mem_comparators word hmem)
      rw [h c hc] at hmark
      cases hmark
    rw [← hsplit, Text.words_append ⟨hword, hblank⟩ hhead, List.filter_cons_of_neg hnot]

theorem comparatorWords_cons {c : Char} (hc : isComparatorChar c = false) (text : List Char) :
    comparatorWords (c :: text) = comparatorWords text := by
  rw [comparatorWords, comparatorWords, Where.spaceComparators_cons hc]
  by_cases hblank : isBlank c = true
  · rw [Text.words_cons_blank hblank]
  · have hplain : (!isBlank c) = true := by simpa using hblank
    have hmark : Twin.isMark c = false := by
      rw [← Bool.not_eq_true]
      intro hmark
      rw [Twin.isComparatorChar_of_isMark hmark] at hc
      cases hc
    have hfirst := not_isMark_of_mem_takeWhile text
    have hlonger : ∀ d ∈ (c :: spaceComparators text).takeWhile (!isBlank ·),
        Twin.isMark d = false := by
      rw [List.takeWhile_cons_of_pos (p := (!isBlank ·)) hplain]
      exact List.forall_mem_cons.mpr ⟨hmark, hfirst⟩
    rw [filter_words hlonger, filter_words hfirst,
      List.dropWhile_cons_of_pos (p := (!isBlank ·)) hplain]

theorem comparatorWords_append {front : List Char} (h : ∀ c ∈ front, isComparatorChar c = false)
    (text : List Char) : comparatorWords (front ++ text) = comparatorWords text := by
  induction front with
  | nil => rfl
  | cons c front ih =>
    obtain ⟨hc, hfront⟩ := List.forall_mem_cons.mp h
    rw [List.cons_append, comparatorWords_cons hc, ih hfront]

/-! ### Comparators -/

/-- In front of `rest`, the comparator is set off as a whole. -/
structure SetsOff (comparator rest : List Char) : Prop where
  mem : comparator ∈ comparators
  spaced : spaceComparators (comparator ++ rest) =
    ' ' :: (comparator ++ ' ' :: spaceComparators rest)

theorem SetsOff.comparatorWords_eq {comparator rest : List Char} (h : SetsOff comparator rest) :
    comparatorWords (comparator ++ rest) = comparator :: comparatorWords rest := by
  have hsolid : ∀ word ∈ comparators, word ≠ [] ∧ ∀ c ∈ word, isBlank c = false := by decide
  have hword : Text.Solid comparator := ⟨(hsolid _ h.mem).1, (hsolid _ h.mem).2⟩
  rw [comparatorWords, h.spaced, Text.words_cons_blank isBlank_space,
    Text.words_append hword (by simpa using isBlank_space), Text.words_cons_blank isBlank_space,
    List.filter_cons_of_pos (List.contains_iff_mem.mpr h.mem), comparatorWords]

theorem head?_ne_some {c : Char} {text : List Char} (h : ∀ rest, text = c :: rest → False) :
    text.head? ≠ some c := by
  intro hhead
  obtain ⟨rest, htext⟩ := List.head?_eq_some_iff.mp hhead
  exact h rest htext

/-- A token either is set off as a comparator or has nothing of one in it. -/
theorem setsOff_or_plain {c : Char} {text : List Char} {token : Token} {n : Nat}
    (h : next c text = .ok (token, n)) (hc : c ∉ ['\'', '"', '\x60']) :
    (token.isComparison = true ∧ SetsOff (c :: text.take n) (text.drop n)) ∨
      (token.isComparison = false ∧ ∀ d ∈ c :: text.take n, isComparatorChar d = false) := by
  fun_cases next c text
  -- A point, alone or in front of a number.
  case case5 hdigits =>
    rw [next, if_pos hdigits] at h
    cases h
    exact .inr ⟨rfl, by simp +decide⟩
  case case6 hdigits _ =>
    rw [next, if_neg hdigits] at h
    cases h
    refine .inr ⟨rfl, List.forall_mem_cons.mpr ⟨by decide, fun d hd => ?_⟩⟩
    exact Where.isComparatorChar_of_class (isNumberChar_number text d hd) (by decide)
  -- The comparators. One that could be longer is set off because the longer one was not read.
  case case12 =>
    cases h
    exact .inl ⟨rfl, by simp [comparators], rfl⟩
  case case13 =>
    cases h
    exact .inl ⟨rfl, by simp [comparators], rfl⟩
  case case14 rest hnot =>
    simp only [next] at h
    cases h
    exact .inl ⟨rfl, by simp [comparators], Twin.spaceComparators_ltEq (head?_ne_some hnot)⟩
  case case15 =>
    cases h
    exact .inl ⟨rfl, by simp [comparators], rfl⟩
  case case16 hnull heq hgt =>
    simp only [next] at h
    cases h
    have isBlank_spaced := Twin.spaceComparators_lt (head?_ne_some heq) (head?_ne_some hgt)
    exact .inl ⟨rfl, by simp [comparators], isBlank_spaced⟩
  case case17 =>
    cases h
    exact .inl ⟨rfl, by simp [comparators], rfl⟩
  case case18 heq =>
    simp only [next] at h
    cases h
    exact .inl ⟨rfl, by simp [comparators], Twin.spaceComparators_gt (head?_ne_some heq)⟩
  case case19 =>
    cases h
    exact .inl ⟨rfl, by simp [comparators], rfl⟩
  -- Quoted texts start with a character that is excluded.
  case case25 => exact absurd (by simp) hc
  case case26 => exact absurd (by simp) hc
  case case27 => exact absurd (by simp) hc
  -- Numbers and names.
  case case28 hdigit _ =>
    rw [next_of_isDigit hdigit] at h
    cases h
    refine .inr ⟨rfl, fun d hd => ?_⟩
    rw [take_numberLength_pred hdigit] at hd
    exact Where.isComparatorChar_of_class (isNumberChar_number _ d hd) (by decide)
  case case29 hstart _ =>
    rw [next_of_isNameStart hstart] at h
    cases h
    have hname := List.prefix_iff_eq_take.mp (List.takeWhile_prefix isNameChar (l := text))
    rw [← hname]
    refine .inr ⟨rfl, List.forall_mem_cons.mpr ⟨?_, fun d hd => ?_⟩⟩
    · exact Where.isComparatorChar_of_class hstart (by decide)
    · have hd' := List.all_eq_true.mp List.all_takeWhile d hd
      exact Where.isComparatorChar_of_class hd' (by decide)
  case case30 hdigit hstart => simp_all [next]
  all_goals
    simp only [next] at h
    cases h <;> exact .inr ⟨rfl, by simp +decide⟩

/-! ### Lexemes -/

theorem IsGap.blank_of_not_comment {rest gap : List Char} (h : IsGap rest gap)
    (hline : ¬ ['-', '-'] <:+: gap) (hblock : ¬ ['/', '*'] <:+: gap) :
    ∀ c ∈ gap, isBlank c = true := by
  induction h with
  | nil => simp
  | @blank c gap hc _ ih =>
    have htail := ih (fun h => hline (h.trans (List.suffix_cons c gap).isInfix))
      fun h => hblock (h.trans (List.suffix_cons c gap).isInfix)
    exact List.forall_mem_cons.mpr ⟨hc, htail⟩
  | line => exact absurd (List.prefix_append ['-', '-'] _).isInfix hline
  | lastLine => exact absurd (List.prefix_append ['-', '-'] _).isInfix hline
  | block => exact absurd (List.prefix_append ['/', '*'] _).isInfix hblock
  | openBlock => exact absurd (List.prefix_append ['/', '*'] _).isInfix hblock

theorem Segmented.comparatorWords_source {ls : List Lexeme} (h : Segmented ls)
    (hquotes : ∀ c ∈ source ls, c ∉ ['\'', '"', '\x60'])
    (hline : ¬ ['-', '-'] <:+: source ls) (hblock : ¬ ['/', '*'] <:+: source ls) :
    comparatorWords (source ls) = (ls.filter (·.token.isComparison)).map (·.text) := by
  have hgap : ∀ (l : Lexeme) (ls : List Lexeme), IsGap (l.text ++ source ls) l.gap →
      ¬ ['-', '-'] <:+: source (l :: ls) → ¬ ['/', '*'] <:+: source (l :: ls) →
      ∀ c ∈ l.gap, isComparatorChar c = false := by
    intro l ls hisGap hline hblock c hc
    have hinfix : l.gap <:+: source (l :: ls) := by
      rw [source_cons, List.append_assoc]
      exact (List.prefix_append _ _).isInfix
    exact Twin.isComparatorChar_of_isBlank (hisGap.blank_of_not_comment
      (fun h => hline (h.trans hinfix)) (fun h => hblock (h.trans hinfix)) c hc)
  induction h with
  | @last gap isGap =>
    have hplain := hgap ⟨gap, [], .eof⟩ [] isGap hline hblock
    rw [source_cons, List.append_nil]
    exact comparatorWords_append hplain []
  | @cons gap text c token ls isGap next_eq tail ih =>
    have hsource : source (⟨gap, c :: text, token⟩ :: ls) = gap ++ (c :: text ++ source ls) := by
      rw [source_cons, List.append_assoc]
    have hsuffix : source ls <:+: source (⟨gap, c :: text, token⟩ :: ls) :=
      (List.suffix_append _ _).isInfix
    have hrest := ih (fun d hd => hquotes d (hsuffix.subset hd))
      (fun h => hline (h.trans hsuffix)) fun h => hblock (h.trans hsuffix)
    have hfirst : c ∉ ['\'', '"', '\x60'] := hquotes c (by rw [hsource]; simp)
    have hcases := setsOff_or_plain next_eq hfirst
    rw [List.take_left, List.drop_left] at hcases
    rw [hsource, comparatorWords_append (hgap _ ls isGap hline hblock), List.filter_cons]
    rcases hcases with ⟨htoken, hoff⟩ | ⟨htoken, hplain⟩
    · rw [hoff.comparatorWords_eq, hrest, if_pos htoken, List.map_cons]
    · rw [comparatorWords_append hplain, hrest, if_neg (by simp [htoken])]

def comparisonSlices (sql : String) (ls : List Lexeme) : List (List Char) :=
  ((spans 0 ls).filter (·.2.2.token.isComparison)).map fun s => sql.toList.extract s.1 s.2.1

theorem comparisonSlices_eq {sql : String} {ls : List Lexeme} (h : source ls = sql.toList) :
    comparisonSlices sql ls = (ls.filter (·.token.isComparison)).map (·.text) := by
  have hslice : ∀ s ∈ (spans 0 ls).filter (·.2.2.token.isComparison),
      sql.toList.extract s.1 s.2.1 = s.2.2.text := by
    intro s hs
    rw [← h]
    exact extract_of_mem_spans (List.mem_of_mem_filter hs)
  calc comparisonSlices sql ls
      = ((spans 0 ls).filter (·.2.2.token.isComparison)).map (·.2.2.text) :=
        List.map_congr_left hslice
    _ = (((spans 0 ls).map (·.2.2)).filter (·.token.isComparison)).map (·.text) := by
        rw [List.filter_map, List.map_map]
        rfl
    _ = (ls.filter (·.token.isComparison)).map (·.text) := by rw [map_spans]

/-- Where there are no quotes and no comments, the comparators that are set off as words are the
slices of the comparison tokens, and nothing but blanks is added. -/
theorem comparatorWords_eq_slices {sql : String} {ls : List Lexeme} (h : ofSource sql = .ok ls)
    (hquotes : ∀ c ∈ sql.toList, c ∉ ['\'', '"', '\x60'])
    (hline : ¬ ['-', '-'] <:+: sql.toList) (hblock : ¬ ['/', '*'] <:+: sql.toList) :
    (words (spaceComparators sql.toList)).filter comparators.contains = comparisonSlices sql ls ∧
      Text.dropBlanks (spaceComparators sql.toList) = Text.dropBlanks sql.toList := by
  refine ⟨?_, dropBlanks_spaceComparators sql.toList⟩
  obtain ⟨hsource, hls⟩ := segmented_of_all (ofSource_eq_ok_iff.mp h)
  rw [comparisonSlices_eq hsource]
  rw [← hsource] at hquotes hline hblock ⊢
  exact hls.comparatorWords_source hquotes hline hblock

theorem comparatorWords_eq_slices_dense :
    let sql := "a<<=>>=!==<>- 1"
    let ls : List Lexeme :=
      [⟨[], ['a'], .word "a"⟩, ⟨[], ['<'], .lt⟩, ⟨[], "<=>".toList, .nullSafeEq⟩,
        ⟨[], ">=".toList, .gtEq⟩, ⟨[], "!=".toList, .notEq .bang⟩, ⟨[], ['='], .eq⟩,
        ⟨[], "<>".toList, .notEq .angled⟩, ⟨[], ['-'], .minus⟩, ⟨[' '], ['1'], .number "1"⟩,
        ⟨[], [], .eof⟩]
    ofSource sql = .ok ls ∧ (∀ c ∈ sql.toList, c ∉ ['\'', '"', '\x60']) ∧
      ¬ ['-', '-'] <:+: sql.toList ∧ ¬ ['/', '*'] <:+: sql.toList ∧
      comparisonSlices sql ls =
        [['<'], "<=>".toList, ">=".toList, "!=".toList, ['='], "<>".toList] ∧
      (words (spaceComparators sql.toList)).filter comparators.contains =
        comparisonSlices sql ls ∧
      Text.dropBlanks (spaceComparators sql.toList) = "a<<=>>=!==<>-1".toList := by
  intro sql ls
  have hls : ofSource sql = .ok ls := Statement.eq_ok_of_toOption (by decide +kernel)
  have hquotes : ∀ c ∈ sql.toList, c ∉ ['\'', '"', '\x60'] := by decide
  have hline : ¬ ['-', '-'] <:+: sql.toList := by decide +kernel
  have hblock : ¬ ['/', '*'] <:+: sql.toList := by decide +kernel
  obtain ⟨hwords, hblanks⟩ := comparatorWords_eq_slices hls hquotes hline hblock
  exact ⟨hls, hquotes, hline, hblock, by decide, hwords, hblanks.trans (by decide)⟩

end Lexeme

end DocQuery
