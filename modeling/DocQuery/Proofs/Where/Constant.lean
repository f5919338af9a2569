import DocQuery.Proofs.Where.Coercion

/-! Numbers and strings as they stand in a comparison. A number may have digits of any script, and a
point that no digit follows: the lexer then takes it apart, but in the text of the comparison it
stays one word. -/

namespace DocQuery.Where

open Lexeme (Reads Scans Stops digitsLength fractionLength exponentLength numberLength)
open Mask (NoQuote numbered)

/-! ### Phrases -/

/-- The lexemes of a text after a gap, if a blank or nothing follows. They stay in one
comparison. -/
structure Phrase (gap text : List Char) (ls : List Lexeme) : Prop where
  starts : ∃ l ms, ls = l :: ms ∧ l.gap = gap
  source_eq : Lexeme.source ls = gap ++ text
  scans : ∀ {rest : List Char}, (∀ c ∈ rest.head?, isBlank c = true) → Scans ls rest
  stays : Stays ls

theorem Phrase.append {gap text other : List Char} {ls ms : List Lexeme} (h : Phrase gap text ls)
    (hother : Phrase [' '] other ms) : Phrase gap (text ++ ' ' :: other) (ls ++ ms) := by
  obtain ⟨l, tail, rfl, hgap⟩ := h.starts
  refine ⟨⟨l, tail ++ ms, rfl, hgap⟩, ?_, fun hrest => ?_, h.stays.append hother.stays⟩
  · rw [Lexeme.source_append, h.source_eq, hother.source_eq, List.append_assoc]
    rfl
  · apply Lexeme.scans_append (h.scans ?_) (hother.scans hrest)
    rw [hother.source_eq]
    rintro c ⟨rfl⟩
    decide

theorem Phrase.readsAs {text : List Char} {ls : List Lexeme} (h : Phrase [' '] text ls) :
    ReadsAs text
      [.leaf (String.ofList text) (Statement.distinct (Statement.mentions ls))] := by
  obtain ⟨l, ms, rfl, hgap⟩ := h.starts
  have htext : [' '] ++ Lexeme.runText (l :: ms) = [' '] ++ text := by
    rw [← h.source_eq, ← hgap]
    simp [Lexeme.runText, Lexeme.source]
  refine ⟨l :: ms, h.source_eq, h.scans (by simp), ?_⟩
  rw [readConditions_of_stays (List.cons_ne_nil _ _) h.stays, Statement.Part.condition,
    Statement.textOf, List.append_cancel_left htext]

theorem Path.phrase (f : Path) : Phrase [' '] f.text (f.lexemes [' ']) := by
  refine ⟨⟨_, _, rfl, rfl⟩, f.source_lexemes [' '], fun {rest} hrest => ?_,
    stays_of_inner (f.inner [' '])⟩
  have hstops : Stops rest := fun c hc => .inl (hrest c hc)
  exact f.scans (by decide) (hstops.not_class (fun _ => Lexeme.isBlank_of_isNameChar) (by decide))

theorem Term.phrase (t : Term) : Phrase [' '] t.text (t.lexemes [' ']) := by
  refine ⟨?_, t.source_lexemes [' '], fun hrest => t.scans (by decide) ?_, t.stays [' ']⟩
  · cases t with
    | number n =>
      rw [lexemes, Number.lexemes]
      cases n.sign with
      | none => exact ⟨_, _, rfl, rfl⟩
      | some sign => exact ⟨_, _, rfl, rfl⟩
    | string quote text plain => exact ⟨_, _, rfl, rfl⟩
    | call c => exact ⟨_, _, rfl, rfl⟩
  · exact fun c hc => .inl (hrest c hc)

/-! ### A point without digits after it -/

structure Pointed where
  sign : Option Sign
  whole : Digits
  exponent : Option Exponent

def Pointed.text (d : Pointed) : List Char :=
  signText d.sign ++ (d.whole.text ++ '.' :: exponentText d.exponent)

/-- After such a point the exponent is a name, which ends at a sign. -/
def exponentLexemes : Option Exponent → List Lexeme
  | none => []
  | some e =>
    match e.sign with
    | none => [⟨[], e.letter :: e.digits.text, .word (String.ofList (e.letter :: e.digits.text))⟩]
    | some sign => [⟨[], [e.letter], .word (String.ofList [e.letter])⟩,
        ⟨[], [sign.char], sign.token⟩, ⟨[], e.digits.text, .number (String.ofList e.digits.text)⟩]

namespace Pointed

def bodyLexemes (gap : List Char) (d : Pointed) : List Lexeme :=
  ⟨gap, d.whole.text, .number (String.ofList d.whole.text)⟩ :: ⟨[], ['.'], .dot⟩ ::
    exponentLexemes d.exponent

def lexemes (gap : List Char) (d : Pointed) : List Lexeme :=
  match d.sign with
  | none => d.bodyLexemes gap
  | some sign => ⟨gap, [sign.char], sign.token⟩ :: d.bodyLexemes []

end Pointed

theorem source_exponentLexemes (exponent : Option Exponent) :
    Lexeme.source (exponentLexemes exponent) = exponentText exponent := by
  cases exponent with
  | none => rfl
  | some e =>
    rw [exponentLexemes, exponentText]
    cases e.sign <;> simp [signText]

theorem Exponent.isNameStart_letter (e : Exponent) : Lexeme.isNameStart e.letter = true := by
  rcases e.isLetter with h | h <;> rw [h] <;> decide

theorem scans_exponentLexemes (exponent : Option Exponent) {rest : List Char} (h : Stops rest) :
    Scans (exponentLexemes exponent) rest := by
  have hnone : ∀ c ∈ ([] : List Char), isBlank c = true := by simp
  cases exponent with
  | none => trivial
  | some e =>
    obtain ⟨c, tail, htext, hc⟩ := e.digits.exists_cons
    rw [exponentLexemes]
    cases e.sign with
    | none =>
      refine ⟨hnone, Lexeme.reads_word e.isNameStart_letter ?_ ?_, trivial⟩
      · exact fun d hd => Lexeme.isNameChar_of_isDigit (e.digits.isDigit d hd)
      · exact h.not_class (fun _ => Lexeme.isBlank_of_isNameChar) (by decide)
    | some sign =>
      refine ⟨hnone, Lexeme.reads_word e.isNameStart_letter (by simp) ?_, hnone, ?_, hnone,
        Lexeme.reads_number e.digits.ne_nil e.digits.isDigit h, trivial⟩
      · rintro d ⟨rfl⟩
        cases sign <;> decide
      · simpa [htext] using reads_sign sign (.inl hc) (tail ++ rest)

/-- No keyword that ends or splits a comparison starts with the letter of an exponent. -/
theorem Exponent.inner_word (e : Exponent) (tail : List Char) :
    Inner (.word (String.ofList (e.letter :: tail))) := by
  have hupper : e.letter.toUpper = 'E' := by
    rcases e.isLetter with h | h <;> rw [h] <;> decide
  apply Where.inner_word
  intro k hk
  have hhead : ∀ k ∈ "AND" :: "OR" :: "BETWEEN" :: Token.clauseWords,
      k.toList.head? ≠ some 'E' := by decide
  rw [Token.isKeyword, String.toList_ofList, beq_eq_false_iff_ne]
  intro heq
  apply hhead k hk
  rw [← heq, ← hupper]
  rfl

theorem inner_exponentLexemes (exponent : Option Exponent) :
    ∀ l ∈ exponentLexemes exponent, Inner l.token := by
  cases exponent with
  | none => simp [exponentLexemes]
  | some e =>
    rw [exponentLexemes]
    cases e.sign with
    | none => simpa using e.inner_word e.digits.text
    | some sign => simpa using ⟨e.inner_word [], sign.inner, inner_number _⟩

namespace Pointed

theorem source_bodyLexemes (d : Pointed) (gap : List Char) :
    Lexeme.source (d.bodyLexemes gap) =
      gap ++ (d.whole.text ++ '.' :: exponentText d.exponent) := by
  simp [bodyLexemes, source_exponentLexemes]

theorem scans_bodyLexemes (d : Pointed) {gap rest : List Char}
    (hgap : ∀ c ∈ gap, isBlank c = true) (h : Stops rest) : Scans (d.bodyLexemes gap) rest := by
  have hnone : ∀ c ∈ ([] : List Char), c.isDigit = true := by simp
  have hzero : digitsLength (exponentText d.exponent ++ rest) = 0 :=
    Lexeme.digitsLength_append hnone fun c hc => (head_exponentText d.exponent h c hc).1
  have hfraction : fractionLength ('.' :: (exponentText d.exponent ++ rest)) = 0 := by
    rw [fractionLength, if_pos hzero]
  have hexponent : exponentLength ('.' :: (exponentText d.exponent ++ rest)) = 0 := by
    apply Lexeme.exponentLength_of_head
    rintro c ⟨rfl⟩
    decide
  have hdigits : digitsLength (d.whole.text ++ '.' :: (exponentText d.exponent ++ rest)) =
      d.whole.text.length := by
    apply Lexeme.digitsLength_append d.whole.isDigit
    rintro c ⟨rfl⟩
    decide
  have hlength : numberLength (d.whole.text ++ '.' :: (exponentText d.exponent ++ rest)) =
      d.whole.text.length := by
    simp only [numberLength, hdigits, List.drop_left, hfraction, Nat.add_zero, hexponent]
  have hwhole : Reads d.whole.text (.number (String.ofList d.whole.text))
      ('.' :: (exponentText d.exponent ++ rest)) := by
    obtain ⟨c, tail, htext, hc⟩ := d.whole.exists_cons
    rw [htext] at hlength ⊢
    refine .of_notMem (isBlank_of_isDigit hc) (notMem_of_class hc (by decide)) ?_
    rw [Lexeme.next_of_isDigit hc, ← List.cons_append, hlength, List.take_left]
    rfl
  refine ⟨hgap, ?_, by simp, ?_, scans_exponentLexemes d.exponent h⟩
  · rw [Lexeme.source_cons, source_exponentLexemes]
    exact hwhole
  · rw [source_exponentLexemes]
    refine .of_notMem (by decide) (by decide) ?_
    rw [List.nil_append, Lexeme.next, if_pos hzero]
    rfl

theorem inner_bodyLexemes (d : Pointed) (gap : List Char) :
    ∀ l ∈ d.bodyLexemes gap, Inner l.token := by
  have hdot : Inner .dot := ⟨fun _ => Bool.and_false _, rfl, rfl, fun _ => rfl⟩
  simpa [bodyLexemes] using ⟨inner_number _, hdot, inner_exponentLexemes d.exponent⟩

theorem phrase (d : Pointed) : Phrase [' '] d.text (d.lexemes [' ']) := by
  have hspace : ∀ c ∈ [' '], isBlank c = true := by decide
  have hstops : ∀ {rest : List Char}, (∀ c ∈ rest.head?, isBlank c = true) → Stops rest :=
    fun hrest c hc => .inl (hrest c hc)
  rw [text, lexemes]
  cases d.sign with
  | none =>
    exact ⟨⟨_, _, rfl, rfl⟩, d.source_bodyLexemes [' '],
      fun hrest => d.scans_bodyLexemes hspace (hstops hrest),
      stays_of_inner (d.inner_bodyLexemes [' '])⟩
  | some sign =>
    refine ⟨⟨_, _, rfl, rfl⟩, ?_, fun {rest} hrest => ?_, stays_of_inner ?_⟩
    · rw [Lexeme.source_cons, source_bodyLexemes]
      rfl
    · obtain ⟨c, tail, htext, hc⟩ := d.whole.exists_cons
      refine ⟨hspace, ?_, d.scans_bodyLexemes (by simp) (hstops hrest)⟩
      rw [source_bodyLexemes, htext]
      exact reads_sign sign (.inl hc) _
    · intro l hl
      rcases List.mem_cons.mp hl with rfl | hl
      · exact sign.inner
      · exact d.inner_bodyLexemes [] l hl

end Pointed

/-! ### Numbers with a value -/

theorem SpellsExponent.exists_exponent {spelled : Option (Bool × List Char)} {text : List Char}
    (h : SpellsExponent spelled text)
    (hascii : ((spelled.map (·.2.all Char.isDigit)).getD true) = true) :
    ∃ exponent, text = exponentText exponent := by
  cases h with
  | none => exact ⟨Option.none, rfl⟩
  | @some letter sign digits hletter hne hdigits =>
    exact ⟨Option.some ⟨letter, sign, ⟨digits, hne, List.all_eq_true.mp hascii⟩, hletter⟩, rfl⟩

theorem exists_text_of_number? {text : List Char} {value : Value} (htight : Text.Tight text)
    (h : Literal.number? text = some value) :
    (∃ d : Number, text = d.text) ∨ ∃ d : Pointed, text = d.text := by
  obtain ⟨n, hread, hvalue⟩ := Option.bind_eq_some_iff.mp h
  have hascii : n.isAscii = true := by
    by_contra hnot
    rw [Numeral.value?, if_neg hnot] at hvalue
    cases hvalue
  rw [Numeral.isAscii, Bool.and_eq_true] at hascii
  obtain ⟨sign, spelled, rfl, hspelled, -, hne⟩ := exists_spelling_of_read? htight hread
  obtain ⟨exponent, rfl⟩ := hspelled.exists_exponent hascii.2
  have hdigits : ∀ c ∈ n.whole ++ n.fraction.getD [], c.isDigit = true :=
    List.all_eq_true.mp hascii.1
  have hwhole : ∀ c ∈ n.whole, c.isDigit = true := fun c hc => hdigits c (List.mem_append_left _ hc)
  rw [Numeral.digits] at hne
  cases hfraction : n.fraction with
  | none =>
    rw [hfraction, Option.getD_none, List.append_nil] at hne
    exact .inl ⟨⟨sign, n.whole, none, exponent, hwhole, fun _ => hne⟩, rfl⟩
  | some digits =>
    rw [hfraction, Option.getD_some] at hne hdigits
    by_cases hnil : digits = []
    · subst hnil
      rw [List.append_nil] at hne
      exact .inr ⟨⟨sign, ⟨n.whole, hne, hwhole⟩, exponent⟩, rfl⟩
    · have hpoint : ∀ c ∈ digits, c.isDigit = true :=
        fun c hc => hdigits c (List.mem_append_right _ hc)
      exact .inl ⟨⟨sign, n.whole, some ⟨digits, hnil, hpoint⟩, exponent, hwhole, by simp⟩, rfl⟩

theorem noQuote_of_isNumber {text : List Char} (htight : Text.Tight text)
    (h : Literal.isNumber text = true) : NoQuote text := by
  refine forall_mem_of_isNumber htight h ?_ (by decide)
  intro c hc
  have hnot : c ∉ [Literal.singleQuote, Literal.doubleQuote, Literal.backQuote] :=
    notMem_of_class hc (by decide)
  simpa [Literal.isQuote, and_assoc] using hnot

theorem scalar?_of_isNumber {text : List Char} (htight : Text.Tight text)
    (h : Literal.isNumber text = true) : Literal.scalar? text = Literal.number? text := by
  have hquoted : Literal.isQuoted text = false := by
    cases text with
    | nil => rfl
    | cons c text => exact noQuote_of_isNumber htight h c List.mem_cons_self
  have hletter : ∀ d ∈ Text.lower text, isLetter d = true → d = 'e' := by
    intro d hd hisLetter
    obtain ⟨c, hc, rfl⟩ := List.mem_map.mp hd
    refine forall_mem_of_isNumber htight h
      (P := fun c => isLetter c.toLower = true → c.toLower = 'e') ?_ (by decide) c hc hisLetter
    intro c hc hlower
    rw [isAnyDigit_of_isLetter (isLetter_of_toLower hlower)] at hc
    cases hc
  have hword : ∀ (word : String) (d : Char), d ∈ word.toList → isLetter d = true → d ≠ 'e' →
      Text.lower text ≠ word.toList :=
    fun word d hd hisLetter hne heq => hne (hletter d (heq ▸ hd) hisLetter)
  have htrue := hword "true" 't' (by decide) (by decide) (by decide)
  have hfalse := hword "false" 'f' (by decide) (by decide) (by decide)
  have hnull := hword "null" 'n' (by decide) (by decide) (by decide)
  rw [Literal.scalar?, if_neg (by simp [hquoted])]
  simp only [if_neg htrue, if_neg hfalse, if_neg hnull]

/-! ### Constants -/

inductive Constant where
  | number (text : List Char) (isNumber : Literal.isNumber text = true)
    (not_blank : ∀ c ∈ text, isBlank c = false)
  | string (quote : Quote) (text : List Char)
    (plain : ∀ c ∈ text, Literal.isQuote c = false ∧ c ≠ '\\')

namespace Constant

def text : Constant → List Char
  | number text _ _ => text
  | string quote text plain => (Term.string quote text plain).text

def value (v : Constant) : Value :=
  (Literal.scalar? v.text).getD (.string (String.ofList v.text))

/-- The names of a comparison have the string, and none of them has a quote. -/
def NamedBy : Constant → List String → Prop
  | number _ _ _, _ => True
  | string _ text _, names => String.ofList text ∈ names ∧ ∀ name ∈ names, NoQuote name.toList

theorem scalar?_string (quote : Quote) (text : List Char)
    (plain : ∀ c ∈ text, Literal.isQuote c = false ∧ c ≠ '\\') :
    Literal.scalar? (string quote text plain).text = some (.string (String.ofList text)) := by
  rw [Constant.text, Term.text_string]
  exact Literal.scalar?_quoted (isQuote_char quote) text

theorem exists_phrase (v : Constant) (h : (Literal.scalar? v.text).isSome = true) :
    ∃ ls, Phrase [' '] v.text ls := by
  cases v with
  | string quote text plain => exact ⟨_, (Term.string quote text plain).phrase⟩
  | number text hnumber hblank =>
    have htight := Text.tight_of_not_blank hblank
    rw [Constant.text, scalar?_of_isNumber htight hnumber] at h
    obtain ⟨value, hvalue⟩ := Option.isSome_iff_exists.mp h
    rw [Constant.text]
    obtain ⟨d, rfl⟩ | ⟨d, rfl⟩ := exists_text_of_number? htight hvalue
    · rw [← Term.text_number]
      exact ⟨_, (Term.number d).phrase⟩
    · exact ⟨_, d.phrase⟩

/-- The constant is masked by a single word, and a path next to it is not masked. -/
theorem exists_protect (v : Constant) {front back : List Char} (hfront : NoQuote front)
    (hback : NoQuote back) {names : List String} (hnames : v.NamedBy names) :
    ∃ (mask : Mask) (word : List Char),
      Mask.protect names (front ++ v.text ++ back) = (mask, front ++ word ++ back) ∧
      Wordlike word ∧ mask.restore word = v.text ∧ ∀ f : Path, mask.restore f.text = f.text := by
  cases v with
  | number text hnumber hblank =>
    have htight := Text.tight_of_not_blank hblank
    have hquote : NoQuote (front ++ text ++ back) :=
      (hfront.append (noQuote_of_isNumber htight hnumber)).append hback
    have hcomparator : ∀ c ∈ text, isComparatorChar c = false :=
      forall_mem_of_isNumber htight hnumber
        (fun _ hc => isComparatorChar_of_class hc (by decide)) (by decide)
    refine ⟨[], text, Mask.protect_of_noQuote hquote names, ⟨?_, ?_⟩, rfl, fun _ => rfl⟩
    · rintro rfl
      cases hnumber
    · exact fun c hc => ⟨hblank c hc, hcomparator c hc⟩
  | string quote text plain =>
    have hterm : ∀ name ∈ (Term.string quote text plain).names, name ∈ names := by
      intro name hname
      rw [List.mem_singleton.mp hname]
      exact hnames.1
    obtain ⟨literals, hmasked, hprotect⟩ :=
      (Term.string quote text plain).exists_protect hfront hback hnames.2 hterm
    refine ⟨_, _, hprotect, ⟨Term.masked_ne_nil, fun c hc => ⟨?_, ?_⟩⟩, hmasked.restore,
      fun f => Mask.restore_numbered_of_clear f.clear literals⟩
    · exact (Term.solid_masked hmasked.hidden).not_blank c hc
    · exact Term.not_comparatorChar_masked hmasked.hidden c hc

theorem isReversedOperand (v : Constant) : Comparison.isReversedOperand v.text = true := by
  cases v with
  | number text hnumber hblank => simp [Comparison.isReversedOperand, Constant.text, hnumber]
  | string quote text plain =>
    rw [Constant.text, Term.text_string]
    cases quote <;> simp [Comparison.isReversedOperand, Quote.char, Literal.singleQuote,
      Literal.doubleQuote]

theorem coerce_text (v : Constant) (registry : Registry) (names : List String)
    (field : List Char) : Comparison.coerce registry names field v.text = .ok v.value := by
  rw [Comparison.coerce, value]
  cases hscalar : Literal.scalar? v.text with
  | some value => rfl
  | none =>
    have hcall : Literal.isInlineCall v.text = false := by
      cases v with
      | string quote text plain =>
        rw [scalar?_string] at hscalar
        cases hscalar
      | number text hnumber hblank =>
        exact not_isInlineCall_of_noQuote
          (noQuote_of_isNumber (Text.tight_of_not_blank hblank) hnumber)
    simp only [hcall]
    rfl

end Constant

end DocQuery.Where
