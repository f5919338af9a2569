import DocQuery.Proofs.Condition.Mask
import DocQuery.Proofs.Value.Numeral
import DocQuery.Proofs.Where.Leaf

/-! The filter of a written comparison: its path, its comparator and its operand come out as they
went in. -/

namespace DocQuery.Where

open Mask (NoQuote)

def isComparatorChar (c : Char) : Bool :=
  ['<', '>', '=', '!'].contains c

/-- The text stays one word. -/
structure Wordlike (text : List Char) : Prop where
  ne_nil : text ≠ []
  forall_mem : ∀ c ∈ text, isBlank c = false ∧ isComparatorChar c = false

theorem Wordlike.solid {text : List Char} (h : Wordlike text) : Text.Solid text :=
  ⟨h.ne_nil, fun c hc => (h.forall_mem c hc).1⟩

theorem isComparatorChar_of_class {p : Char → Bool} {c : Char} (hc : p c = true)
    (hp : ['<', '>', '=', '!'].any p = false) : isComparatorChar c = false := by
  simpa [isComparatorChar] using notMem_of_class hc hp

theorem spaceComparators_cons {c : Char} (h : isComparatorChar c = false) (text : List Char) :
    Comparison.spaceComparators (c :: text) = c :: Comparison.spaceComparators text := by
  rw [Comparison.spaceComparators.eq_def]
  split <;> simp_all [isComparatorChar]

theorem spaceComparators_append {front : List Char} (h : ∀ c ∈ front, isComparatorChar c = false)
    (text : List Char) :
    Comparison.spaceComparators (front ++ text) = front ++ Comparison.spaceComparators text := by
  induction front with
  | nil => rfl
  | cons c front ih =>
    rw [List.cons_append, spaceComparators_cons (h c List.mem_cons_self),
      ih fun d hd => h d (List.mem_cons_of_mem c hd), List.cons_append]

theorem spaceComparators_eq_self {text : List Char} (h : ∀ c ∈ text, isComparatorChar c = false) :
    Comparison.spaceComparators text = text := by
  have hspaced : Comparison.spaceComparators (text ++ []) = text ++ [] :=
    spaceComparators_append h []
  rwa [List.append_nil] at hspaced

theorem Comparator.spaceComparators_text (c : Comparator) {rest : List Char}
    (h : ∀ d ∈ rest.head?, isBlank d = true) :
    Comparison.spaceComparators (c.text ++ rest) =
      ' ' :: (c.text ++ ' ' :: Comparison.spaceComparators rest) := by
  have heq := ne_cons_of_head_blank h (show isBlank '=' = false by decide)
  have hgt := ne_cons_of_head_blank h (show isBlank '>' = false by decide)
  cases c with
  | eq => rfl
  | notEq spelling => cases spelling <;> rfl
  | gtEq => rfl
  | _ =>
    -- Longer comparators are tried first; the blank keeps them from being found.
    rw [Comparison.spaceComparators.eq_def]
    split <;> grind [text]

theorem Gap.not_comparatorChar (g : Gap) : ∀ c ∈ g.text, isComparatorChar c = false :=
  fun c hc => isComparatorChar_of_class (g.blank c hc) (by decide)

theorem Path.not_comparatorChar (p : Path) : ∀ c ∈ p.text, isComparatorChar c = false :=
  p.forall_mem (fun _ h => isComparatorChar_of_class h (by decide))
    (fun _ h => isComparatorChar_of_class h (by decide)) (by decide)

theorem Name.solid (n : Name) : Text.Solid n.text :=
  ⟨List.cons_ne_nil _ _, n.forall_mem (fun _ => Lexeme.isBlank_of_isNameStart)
    (fun _ => Lexeme.isBlank_of_isNameChar)⟩

theorem Path.solid (p : Path) : Text.Solid p.text :=
  ⟨List.cons_ne_nil _ _, p.forall_mem (fun _ => Lexeme.isBlank_of_isNameStart)
    (fun _ => Lexeme.isBlank_of_isNameChar) (by decide)⟩

theorem Comparator.solid (c : Comparator) : Text.Solid c.text := by
  cases c with
  | notEq spelling => cases spelling <;> exact ⟨by decide, by decide⟩
  | _ => exact ⟨by decide, by decide⟩

theorem words_operand (p : Path) (before after : Gap) (c : Comparator) (operand : List Char) :
    Text.words (Comparison.spaceComparators
        (p.text ++ before.text ++ c.text ++ after.text ++ operand)) =
      p.text :: c.text :: Text.words (Comparison.spaceComparators operand) := by
  have hspaced : Comparison.spaceComparators
        (p.text ++ before.text ++ c.text ++ after.text ++ operand) =
      p.text ++ (before.text ++ ' ' :: (c.text ++ ' ' :: (after.text ++
        Comparison.spaceComparators operand))) := by
    simp only [List.append_assoc]
    rw [spaceComparators_append p.not_comparatorChar,
      spaceComparators_append before.not_comparatorChar,
      c.spaceComparators_text (after.head_blank operand),
      spaceComparators_append after.not_comparatorChar]
  have hspace : isBlank ' ' = true := by decide
  rw [hspaced, Text.words_append p.solid (before.head_blank _),
    Text.words_blanks_append before.blank, Text.words_cons_blank hspace,
    Text.words_append c.solid (by simp [hspace]), Text.words_cons_blank hspace,
    Text.words_blanks_append after.blank]

theorem words_comparison (p : Path) (before after : Gap) (c : Comparator) {word : List Char}
    (hword : Text.Solid word) (hnot : ∀ c ∈ word, isComparatorChar c = false) :
    Text.words (Comparison.spaceComparators
        (p.text ++ before.text ++ c.text ++ after.text ++ word)) =
      [p.text, c.text, word] := by
  rw [words_operand, spaceComparators_eq_self hnot, Text.words_solid hword]

/-! ### Operands -/

theorem noQuote_of_not_delimiter {text : List Char}
    (h : ∀ c ∈ text, Condition.isDelimiter c = false) : NoQuote text := by
  intro c hc
  have hd := h c hc
  simp only [Condition.isDelimiter, Bool.or_eq_false_iff] at hd
  exact hd.1.1

theorem Operand.solid_integer {negative : Bool} {digits : List Char} (hne : digits ≠ [])
    (h : ∀ c ∈ digits, c.isDigit = true) :
    Text.Solid (if negative then '-' :: digits else digits) := by
  refine ⟨?_, forall_mem_integer h (fun _ => isBlank_of_isDigit) (by decide)⟩
  cases negative with
  | false => exact hne
  | true => exact List.cons_ne_nil _ _

theorem read?_integer {negative : Bool} {digits : List Char} (hne : digits ≠ [])
    (h : ∀ c ∈ digits, c.isDigit = true) :
    Numeral.read? (if negative then '-' :: digits else digits) =
      some ⟨negative, digits, none, none⟩ := by
  have hsplit : Numeral.splitSign (if negative then '-' :: digits else digits) =
      (negative, digits) := by
    cases negative with
    | true => rfl
    | false =>
      obtain ⟨c, tail, rfl⟩ := List.exists_cons_of_ne_nil hne
      exact Numeral.splitSign_cons (notMem_of_class (h c List.mem_cons_self) (by decide)) tail
  have hany : ∀ c ∈ digits, isAnyDigit c = true := fun c hc => isAnyDigit_of_isDigit (h c hc)
  have htake : (digits ++ []).takeWhile isAnyDigit = digits ++ [].takeWhile isAnyDigit :=
    List.takeWhile_append_of_pos hany
  have hdrop : (digits ++ []).dropWhile isAnyDigit = [].dropWhile isAnyDigit :=
    List.dropWhile_append_of_pos hany
  have hempty : digits.isEmpty = false := by simpa using hne
  rw [Numeral.read?, (Operand.solid_integer hne h).tight.trim_eq, hsplit]
  simp only [List.append_nil, List.takeWhile_nil, List.dropWhile_nil] at htake hdrop
  simp [htake, hdrop, hempty, Numeral.readExponent]

theorem Operand.scalar?_text (v : Operand) : Literal.scalar? v.text = some v.value := by
  cases v with
  | integer negative digits hne hdigits hfits =>
    obtain ⟨c, tail, htext, hc⟩ : ∃ c tail,
        (if negative then '-' :: digits else digits) = c :: tail ∧ Literal.isNumberStart c = true := by
      cases negative with
      | true => exact ⟨'-', digits, rfl, by decide⟩
      | false =>
        obtain ⟨c, tail, rfl⟩ := List.exists_cons_of_ne_nil hne
        exact ⟨c, tail, rfl, by simp [Literal.isNumberStart, hdigits c List.mem_cons_self]⟩
    have hread : Numeral.read? (if negative then '-' :: digits else digits) =
        some ⟨negative, digits, none, none⟩ := read?_integer hne hdigits
    have hascii : digits.all Char.isDigit = true := List.all_eq_true.mpr hdigits
    have hvalue : (if negative then -Int.ofNat (Text.decimalValue digits)
        else Int.ofNat (Text.decimalValue digits)) = signed negative digits := by
      rw [signed, Nat.ofDigitChars_eq_foldl]
      rfl
    have hsmall : Value.fitsInt64 (signed negative digits) = true := by
      simp only [Value.fitsInt64, Bool.and_eq_true, decide_eq_true_eq]
      exact hfits
    have hinteger : Numeral.integer? ⟨negative, digits, none, none⟩ =
        some (signed negative digits) := by
      rw [← hvalue] at hsmall ⊢
      exact if_pos hsmall
    rw [text, htext, Literal.scalar?_of_isNumberStart hc, ← htext, Literal.number?, hread]
    simp [Numeral.value?, Numeral.isAscii, Numeral.digits, hascii, hinteger, value]
  | string text => exact Literal.scalar?_quoted (by decide) text

/-! ### Conversion -/

theorem Path.noQuote (p : Path) : NoQuote p.text :=
  noQuote_of_not_delimiter p.not_delimiter

theorem Path.not_isQuoted (p : Path) : Literal.isQuoted p.text = false :=
  p.noQuote _ List.mem_cons_self

theorem Path.not_isNumber (p : Path) : Literal.isNumber p.text = false := by
  have hread : Numeral.read? p.text = none :=
    Numeral.read?_of_isNameStart p.first.start p.solid.tight
  rw [Literal.isNumber, hread]
  rfl

theorem not_isInlineCall_of_noQuote {text : List Char} (h : NoQuote text) :
    Literal.isInlineCall text = false := by
  have hany : (text.any fun c => c == Literal.singleQuote || c == Literal.doubleQuote) =
      false := by
    rw [List.any_eq_false]
    intro c hc
    have hquote := h c hc
    simp only [Literal.isQuote, Bool.or_eq_false_iff] at hquote
    simp [hquote.1]
  rw [Literal.isInlineCall, hany, Bool.and_false]

theorem Path.not_isInlineCall (p : Path) : Literal.isInlineCall p.text = false :=
  not_isInlineCall_of_noQuote p.noQuote

theorem Path.not_isReversedOperand (p : Path) : Comparison.isReversedOperand p.text = false := by
  obtain ⟨tail, htext⟩ : ∃ tail, p.text = p.first.first :: tail := ⟨_, rfl⟩
  have hquote := p.not_isQuoted
  have hnumber := p.not_isNumber
  have hcall := p.not_isInlineCall
  rw [htext] at hquote hnumber hcall ⊢
  rw [Comparison.isReversedOperand, hnumber, hcall]
  simp only [Literal.isQuoted, Literal.isQuote, Bool.or_eq_false_iff] at hquote
  simp [hquote.1]

def Comparator.predicate (value : Value) : Comparator → Predicate
  | eq => .equals value
  | notEq _ => .operator .ne value
  | lt => .operator .lt value
  | ltEq => .operator .lte value
  | gt => .operator .gt value
  | gtEq => .operator .gte value

theorem Comparator.holds_predicate (c : Comparator) (σ : Truth) (name : String) (value : Value) :
    (c.predicate value).holds σ name = σ name (c.atom value) := by
  cases c <;> simp [predicate, atom, Predicate.operator, Predicate.holds]

def Comparator.comparison : Comparator → Comparison
  | eq => .eq
  | notEq _ => .notEq
  | lt => .lt
  | ltEq => .ltEq
  | gt => .gt
  | gtEq => .gtEq

theorem Comparator.splitNegation_text (c : Comparator) (rest : List (List Char)) :
    Comparison.splitNegation (Text.lower c.text) rest = (false, c.text, rest) := by
  cases rest with
  | nil =>
    cases c with
    | notEq spelling => cases spelling <;> rfl
    | _ => rfl
  | cons word rest =>
    cases c with
    | notEq spelling => cases spelling <;> rfl
    | _ => rfl

theorem Comparator.ofWord?_text (c : Comparator) :
    Comparison.ofWord? c.text = some c.comparison := by
  cases c with
  | notEq spelling => cases spelling <;> rfl
  | _ => rfl

theorem Path.unquoted_text (p : Path) : Literal.unquoted p.text = p.text := by
  rw [Literal.unquoted, if_neg (by simp [p.not_isQuoted])]

theorem ofWords_operand (registry : Registry) (names : List String) {mask : Mask} {p : Path}
    (c : Comparator) {rest : List (List Char)} {operand : List Char}
    (hpath : mask.restore p.text = p.text) (hrest : mask.restore (Text.unwords rest) = operand) :
    Comparison.ofWords registry names mask (p.text :: c.text :: rest) =
      (Comparison.coerce registry names p.text operand).map fun value =>
        .ofField (String.ofList p.text) (c.predicate value) := by
  rw [Comparison.ofWords]
  simp only [c.splitNegation_text, c.ofWord?_text, hpath, hrest, p.not_isReversedOperand,
    Bool.false_eq_true, and_false, if_false, p.unquoted_text]
  cases c <;> cases Comparison.coerce registry names p.text operand <;> rfl

theorem ofWords_comparison (registry : Registry) (names : List String) {mask : Mask} {p : Path}
    (c : Comparator) {word operand : List Char} (hpath : mask.restore p.text = p.text)
    (hword : mask.restore word = operand) :
    Comparison.ofWords registry names mask [p.text, c.text, word] =
      (Comparison.coerce registry names p.text operand).map fun value =>
        .ofField (String.ofList p.text) (c.predicate value) :=
  ofWords_operand registry names c hpath (by simpa [Text.unwords] using hword)

theorem Path.noQuote_names (p : Path) : ∀ name ∈ p.names, NoQuote name.toList := by
  refine p.forall_names fun n => ?_
  rw [String.toList_ofList]
  exact noQuote_of_not_delimiter n.not_delimiter

theorem Path.clear_names (f : Path) :
    ∀ name ∈ f.names, Text.contains "__literal_".toList name.toList = false := by
  have hinside : ∀ n ∈ f.first :: f.rest, n.text <:+: f.text := by
    intro n hn
    rcases List.mem_cons.mp hn with rfl | hn
    · exact (List.prefix_append _ _).isInfix
    · obtain ⟨front, back, hsplit⟩ := List.append_of_mem hn
      refine ⟨f.first.text ++ steps front ++ ['.'], steps back, ?_⟩
      simp [Path.text, hsplit, steps]
  intro name hname
  have hname' : name ∈ (f.first :: f.rest).map fun n => String.ofList n.text := hname
  obtain ⟨n, hn, rfl⟩ := List.mem_map.mp hname'
  have htext : (String.ofList n.text).toList = n.text := String.toList_ofList
  rw [htext, Mask.clear_iff]
  exact fun hoccurs => Mask.clear_iff.mp f.clear (hoccurs.trans (hinside n hn))

theorem Test.endsQuoted (t : Test) {text : List Char}
    {plain : ∀ c ∈ text, Literal.isQuote c = false ∧ c ≠ '\\'}
    (h : t.operand = .string text plain) : Mask.EndsQuoted t.names t.front text := by
  refine ⟨noQuote_of_not_delimiter t.not_delimiter_front, fun c hc => (plain c hc).1, ?_⟩
  intro name hn
  rcases List.mem_append.mp (mem_distinct.mp hn) with hn | hn
  · exact t.path.noQuote_names name hn
  · rw [h, Operand.strings, List.mem_singleton] at hn
    rw [hn, String.toList_ofList]
    exact fun c hc => (plain c hc).1

theorem Operand.not_comparatorChar_integer {negative : Bool} {digits : List Char}
    (h : ∀ c ∈ digits, c.isDigit = true) :
    ∀ c ∈ (if negative then '-' :: digits else digits), isComparatorChar c = false :=
  forall_mem_integer h (fun _ hc => isComparatorChar_of_class hc (by decide)) (by decide)

theorem Test.exists_protect (t : Test) : ∃ (mask : Mask) (word : List Char),
    Mask.protect t.names t.text = (mask, t.front ++ word) ∧ Text.Solid word ∧
      (∀ c ∈ word, isComparatorChar c = false) ∧ mask.restore t.path.text = t.path.text ∧
      mask.restore word = t.operand.text := by
  cases hv : t.operand with
  | integer negative digits hne hdigits hfits =>
    have hquote : NoQuote t.text := by
      rw [t.text_eq_front, hv]
      refine noQuote_of_not_delimiter fun c hc => ?_
      rcases List.mem_append.mp hc with hc | hc
      · exact t.not_delimiter_front c hc
      · exact Operand.not_delimiter_integer hdigits c hc
    refine ⟨[], t.operand.text, Mask.protect_of_noQuote hquote t.names, ?_, ?_, rfl, ?_⟩
    · rw [hv]
      exact Operand.solid_integer hne hdigits
    · rw [hv]
      exact Operand.not_comparatorChar_integer hdigits
    · rw [hv]
      rfl
  | string text plain =>
    have hends := t.endsQuoted hv
    have htext : t.text = t.front ++ Mask.quoted text := by
      rw [t.text_eq_front, hv]
      rfl
    rw [htext]
    by_cases hnil : text = []
    · -- An empty string is not masked, but it is one word.
      subst hnil
      exact ⟨[], Mask.quoted [], hends.protect_nil, ⟨by decide, by decide⟩, by decide, rfl, rfl⟩
    · have hmem : String.ofList text ∈ t.names :=
        mem_distinct.mpr (List.mem_append_right _ (by simp [hv, Operand.strings]))
      exact ⟨_, _, hends.protect_quoted hmem hnil, ⟨by decide, by decide⟩, by decide,
        Mask.restore_of_clear t.path.clear _, Mask.restore_placeholder _⟩

/-- A written comparison is converted to the field, the comparator and the value it is written
with. -/
theorem Test.convert (t : Test) (registry : Registry) :
    Comparison.convert registry t.names t.text =
      .ok (.ofField t.field (t.comparator.predicate t.operand.value)) := by
  obtain ⟨mask, word, hprotect, hsolid, hnot, hpath, hword⟩ := t.exists_protect
  rw [Comparison.convert, hprotect]
  have hcoerce : Comparison.coerce registry t.names t.path.text t.operand.text =
      .ok t.operand.value := by
    rw [Comparison.coerce, t.operand.scalar?_text]
    rfl
  simp only [front, words_comparison t.path t.before t.after t.comparator hsolid hnot,
    ofWords_comparison registry t.names t.comparator hpath hword, hcoerce]
  rfl

end DocQuery.Where
