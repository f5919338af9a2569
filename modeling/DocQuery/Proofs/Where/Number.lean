import DocQuery.Proofs.Text.Words
import DocQuery.Proofs.Token.Lexing
import DocQuery.Proofs.Value.Numeral

/-! Numbers as they are written, with a sign, a fraction and an exponent. The lexer takes such a
number as one token after its sign, and its text has the value of its parts. -/

namespace DocQuery.Where

open Lexeme (Reads Stops digitsLength fractionLength exponentLength numberLength)

inductive Sign where
  | plus
  | minus
deriving DecidableEq

def Sign.char : Sign → Char
  | plus => '+'
  | minus => '-'

structure Digits where
  text : List Char
  ne_nil : text ≠ []
  isDigit : ∀ c ∈ text, c.isDigit = true

structure Exponent where
  letter : Char
  sign : Option Sign
  digits : Digits
  isLetter : letter = 'e' ∨ letter = 'E'

/-- Digits before the point may be left out if there are some after it. -/
structure Number where
  sign : Option Sign
  whole : List Char
  fraction : Option Digits
  exponent : Option Exponent
  isDigit : ∀ c ∈ whole, c.isDigit = true
  ne_nil : fraction = none → whole ≠ []

def signText (sign : Option Sign) : List Char :=
  (sign.map Sign.char).toList

def fractionText : Option Digits → List Char
  | none => []
  | some digits => '.' :: digits.text

def exponentText : Option Exponent → List Char
  | none => []
  | some e => e.letter :: (signText e.sign ++ e.digits.text)

namespace Number

def body (d : Number) : List Char :=
  d.whole ++ (fractionText d.fraction ++ exponentText d.exponent)

def text (d : Number) : List Char :=
  signText d.sign ++ d.body

def numeral (d : Number) : Numeral :=
  ⟨decide (d.sign = some .minus), d.whole, d.fraction.map (·.text),
    d.exponent.map fun e => (decide (e.sign = some .minus), e.digits.text)⟩

/-- An integer if there is neither a point nor an exponent and it fits in 64 bits. -/
def value (d : Number) : Value :=
  match d.numeral.integer? with
  | some n => .int n
  | none => .double (.ofDecimal d.numeral.negative (Text.decimalValue d.numeral.digits)
      (d.numeral.power - (d.numeral.fraction.getD []).length))

end Number

/-! ### Characters -/

theorem Digits.exists_cons (digits : Digits) :
    ∃ c tail, digits.text = c :: tail ∧ c.isDigit = true := by
  obtain ⟨c, tail, htext⟩ := List.exists_cons_of_ne_nil digits.ne_nil
  exact ⟨c, tail, htext, digits.isDigit c (htext ▸ List.mem_cons_self)⟩

theorem forall_mem_signText {P : Char → Prop} (hsign : ∀ s : Sign, P s.char) (sign : Option Sign) :
    ∀ c ∈ signText sign, P c := by
  intro c hc
  cases sign with
  | none => cases hc
  | some s =>
    rw [List.mem_singleton.mp hc]
    exact hsign s

theorem Number.forall_mem (d : Number) {P : Char → Prop} (hdigit : ∀ c, c.isDigit = true → P c)
    (hother : ∀ c ∈ ['+', '-', '.', 'e', 'E'], P c) : ∀ c ∈ d.text, P c := by
  have hsign : ∀ s : Sign, P s.char := by
    intro s
    cases s <;> exact hother _ (by decide)
  intro c hc
  simp only [text, body, List.mem_append] at hc
  rcases hc with hc | hc | hc | hc
  · exact forall_mem_signText hsign d.sign c hc
  · exact hdigit c (d.isDigit c hc)
  · cases hfraction : d.fraction with
    | none => simp [hfraction, fractionText] at hc
    | some digits =>
      rw [hfraction] at hc
      rcases List.mem_cons.mp hc with rfl | hc
      · exact hother _ (by decide)
      · exact hdigit c (digits.isDigit c hc)
  · cases hexponent : d.exponent with
    | none => simp [hexponent, exponentText] at hc
    | some e =>
      rw [hexponent] at hc
      rcases List.mem_cons.mp hc with rfl | hc
      · rcases e.isLetter with h | h <;> rw [h] <;> exact hother _ (by decide)
      rcases List.mem_append.mp hc with hc | hc
      · exact forall_mem_signText hsign e.sign c hc
      · exact hdigit c (e.digits.isDigit c hc)

theorem Number.exists_body_cons (d : Number) :
    ∃ c tail, d.body = c :: tail ∧ (c.isDigit = true ∨ c = '.') := by
  cases hwhole : d.whole with
  | nil =>
    cases hfraction : d.fraction with
    | none => exact absurd hwhole (d.ne_nil hfraction)
    | some digits => exact ⟨'.', _, by rw [body, hwhole, hfraction]; rfl, .inr rfl⟩
  | cons c tail =>
    refine ⟨c, _, by rw [body, hwhole]; rfl, .inl (d.isDigit c ?_)⟩
    rw [hwhole]
    exact List.mem_cons_self

theorem Number.solid (d : Number) : Text.Solid d.text := by
  obtain ⟨c, tail, hbody, -⟩ := d.exists_body_cons
  refine ⟨?_, d.forall_mem (fun _ => isBlank_of_isDigit) (by decide)⟩
  rw [text, hbody]
  exact List.append_ne_nil_of_right_ne_nil _ (List.cons_ne_nil _ _)

theorem head_exponentText (exponent : Option Exponent) {rest : List Char}
    (h : Stops rest) :
    ∀ c ∈ (exponentText exponent ++ rest).head?, c.isDigit = false ∧ c ≠ '.' := by
  intro c hc
  cases exponent with
  | none => exact ⟨h.not_digit c hc, h.head_ne (by decide) (by decide) c hc⟩
  | some e =>
    cases hc
    rcases e.isLetter with h | h <;> rw [h] <;> decide

theorem head_fractionText (fraction : Option Digits) (exponent : Option Exponent)
    {rest : List Char} (h : Stops rest) :
    ∀ c ∈ (fractionText fraction ++ (exponentText exponent ++ rest)).head?, c.isDigit = false := by
  intro c hc
  cases fraction with
  | none => exact (head_exponentText exponent h c hc).1
  | some digits =>
    cases hc
    decide

/-! ### Lexing -/

theorem fractionLength_append (fraction : Option Digits) (exponent : Option Exponent)
    {rest : List Char} (h : Stops rest) :
    fractionLength (fractionText fraction ++ (exponentText exponent ++ rest)) =
      (fractionText fraction).length := by
  cases fraction with
  | none => exact Lexeme.fractionLength_of_head fun c hc => (head_exponentText exponent h c hc).2
  | some digits =>
    have hlength : digitsLength (digits.text ++ (exponentText exponent ++ rest)) =
        digits.text.length :=
      Lexeme.digitsLength_append digits.isDigit fun c hc => (head_exponentText exponent h c hc).1
    have hne : digits.text.length ≠ 0 := fun hzero => digits.ne_nil (List.length_eq_zero_iff.mp hzero)
    show fractionLength ('.' :: (digits.text ++ (exponentText exponent ++ rest))) = _
    rw [Lexeme.fractionLength, hlength, if_neg hne]
    rfl

theorem exponentLength_append (exponent : Option Exponent) {rest : List Char} (h : Stops rest) :
    exponentLength (exponentText exponent ++ rest) = (exponentText exponent).length := by
  cases exponent with
  | none => exact Lexeme.exponentLength_of_head h.not_exponent
  | some e =>
    have hlength : digitsLength (e.digits.text ++ rest) = e.digits.text.length :=
      Lexeme.digitsLength_append e.digits.isDigit h.not_digit
    cases hsign : e.sign with
    | none =>
      obtain ⟨c, tail, htext, hc⟩ := e.digits.exists_cons
      have hnot : c ∉ ['+', '-'] := notMem_of_class hc (by decide)
      have hplain : ¬ (c = '+' ∨ c = '-') := by simpa using hnot
      rw [htext, List.cons_append] at hlength
      simp [exponentText, exponentLength, signText, hsign, htext, e.isLetter, hplain, hlength]
    | some s =>
      have hs : s.char = '+' ∨ s.char = '-' := by cases s <;> decide
      simp [exponentText, exponentLength, signText, hsign, e.isLetter, hs, hlength, e.digits.ne_nil]

theorem numberLength_parts {whole : List Char} (hwhole : ∀ c ∈ whole, c.isDigit = true)
    (fraction : Option Digits) (exponent : Option Exponent) {rest : List Char} (h : Stops rest) :
    numberLength (whole ++ (fractionText fraction ++ (exponentText exponent ++ rest))) =
      (whole ++ (fractionText fraction ++ exponentText exponent)).length := by
  have hdigits := Lexeme.digitsLength_append hwhole (head_fractionText fraction exponent h)
  have hdrop : (whole ++ (fractionText fraction ++ (exponentText exponent ++ rest))).drop
      (whole.length + (fractionText fraction).length) = exponentText exponent ++ rest := by
    rw [← List.drop_drop, List.drop_left, List.drop_left]
  simp only [numberLength, hdigits, List.drop_left, fractionLength_append fraction exponent h,
    hdrop, exponentLength_append exponent h, List.length_append]
  omega

namespace Number

def token (d : Number) : Token :=
  .number (String.ofList (if d.whole = [] then '0' :: d.body else d.body))

theorem reads_body (d : Number) {rest : List Char} (h : Stops rest) :
    Reads d.body d.token rest := by
  cases hwhole : d.whole with
  | nil =>
    cases hfraction : d.fraction with
    | none => exact absurd hwhole (d.ne_nil hfraction)
    | some digits =>
      have hbody : d.body = '.' :: (digits.text ++ exponentText d.exponent) := by
        rw [body, hwhole, hfraction]
        rfl
      have hlength : numberLength (digits.text ++ (exponentText d.exponent ++ rest)) =
          (digits.text ++ exponentText d.exponent).length :=
        numberLength_parts digits.isDigit none d.exponent h
      have hdigits : digitsLength (digits.text ++ (exponentText d.exponent ++ rest)) ≠ 0 := by
        rw [Lexeme.digitsLength_append digits.isDigit
          fun c hc => (head_exponentText d.exponent h c hc).1]
        exact fun hzero => digits.ne_nil (List.length_eq_zero_iff.mp hzero)
      rw [token, if_pos hwhole, hbody]
      refine .of_notMem (by decide) (by decide) ?_
      rw [List.append_assoc, Lexeme.next, if_neg hdigits]
      simp only [hlength]
      rw [← List.append_assoc, List.take_left]
  | cons c tail =>
    have hc : c.isDigit = true := d.isDigit c (by simp [hwhole])
    have hbody : d.body = c :: (tail ++ (fractionText d.fraction ++ exponentText d.exponent)) := by
      rw [body, hwhole]
      rfl
    have hlength : numberLength (d.body ++ rest) = d.body.length := by
      have hparts := numberLength_parts d.isDigit d.fraction d.exponent h
      simpa only [body, List.append_assoc] using hparts
    rw [token, if_neg (by simp [hwhole])]
    rw [hbody] at hlength ⊢
    refine .of_notMem (isBlank_of_isDigit hc) (notMem_of_class hc (by decide)) ?_
    rw [Lexeme.next_of_isDigit hc, ← List.cons_append, hlength, List.take_left]
    rfl

/-! ### Reading the value back -/

theorem splitSign_text (d : Number) :
    Numeral.splitSign d.text = (decide (d.sign = some .minus), d.body) := by
  obtain ⟨c, tail, hbody, hc⟩ := d.exists_body_cons
  rw [text, hbody]
  cases d.sign with
  | none =>
    refine Numeral.splitSign_cons ?_ tail
    rcases hc with hc | rfl
    · exact notMem_of_class hc (by decide)
    · decide
  | some s => cases s <;> rfl

theorem takeWhile_isAnyDigit {digits rest : List Char} (hdigits : ∀ c ∈ digits, c.isDigit = true)
    (hrest : ∀ c ∈ rest.head?, isAnyDigit c = false) :
    (digits ++ rest).takeWhile isAnyDigit = digits ∧
      (digits ++ rest).dropWhile isAnyDigit = rest := by
  have hany : ∀ c ∈ digits, isAnyDigit c = true := fun c hc => isAnyDigit_of_isDigit (hdigits c hc)
  refine ⟨Lexeme.takeWhile_append_of_head hany hrest, ?_⟩
  rw [List.dropWhile_append_of_pos hany]
  cases rest with
  | nil => rfl
  | cons c rest => rw [List.dropWhile_cons_of_neg (by simp [hrest c rfl])]

theorem readExponent_text (mantissa : Option (Bool × List Char) → Numeral)
    (exponent : Option Exponent) :
    Numeral.readExponent mantissa (exponentText exponent) =
      some (mantissa (exponent.map fun e => (decide (e.sign = some .minus), e.digits.text))) := by
  cases exponent with
  | none => rfl
  | some e =>
    have hsplit : Numeral.splitSign (signText e.sign ++ e.digits.text) =
        (decide (e.sign = some .minus), e.digits.text) := by
      obtain ⟨c, tail, htext, hc⟩ := e.digits.exists_cons
      rw [htext]
      cases e.sign with
      | none => exact Numeral.splitSign_cons (notMem_of_class hc (by decide)) tail
      | some s => cases s <;> rfl
    have hall : e.digits.text.all isAnyDigit = true :=
      List.all_eq_true.mpr fun c hc => isAnyDigit_of_isDigit (e.digits.isDigit c hc)
    rw [exponentText, Numeral.readExponent, hsplit]
    exact if_pos ⟨e.isLetter, e.digits.ne_nil, hall⟩

theorem head_exponentText_isAnyDigit (exponent : Option Exponent) :
    ∀ c ∈ (exponentText exponent).head?, isAnyDigit c = false ∧ c ≠ '.' := by
  intro c hc
  cases exponent with
  | none => cases hc
  | some e =>
    cases hc
    rcases e.isLetter with h | h <;> rw [h] <;> decide

theorem read?_text (d : Number) : Numeral.read? d.text = some d.numeral := by
  have hexponent := head_exponentText_isAnyDigit d.exponent
  rw [Numeral.read?, d.solid.tight.trim_eq, d.splitSign_text]
  cases hfraction : d.fraction with
  | none =>
    obtain ⟨htake, hdrop⟩ := takeWhile_isAnyDigit d.isDigit fun c hc => (hexponent c hc).1
    have hbody : d.body = d.whole ++ exponentText d.exponent := by
      rw [body, hfraction]
      rfl
    have hempty : d.whole.isEmpty = false := by simpa using d.ne_nil hfraction
    simp only [hbody, htake, hdrop]
    split
    · rename_i heq
      exact absurd rfl (hexponent '.' (by rw [heq]; rfl)).2
    · simp [hempty, readExponent_text, numeral, hfraction]
  | some digits =>
    have hpoint : ∀ c ∈ ('.' :: (digits.text ++ exponentText d.exponent)).head?,
        isAnyDigit c = false := by
      rintro c ⟨rfl⟩
      decide
    obtain ⟨htake, hdrop⟩ := takeWhile_isAnyDigit d.isDigit hpoint
    obtain ⟨htake', hdrop'⟩ := takeWhile_isAnyDigit digits.isDigit fun c hc => (hexponent c hc).1
    have hbody : d.body = d.whole ++ '.' :: (digits.text ++ exponentText d.exponent) := by
      rw [body, hfraction]
      rfl
    have hempty : digits.text.isEmpty = false := by simpa using digits.ne_nil
    simp only [hbody, htake, hdrop, htake', hdrop']
    simp [hempty, readExponent_text, numeral, hfraction]

theorem value?_numeral (d : Number) : d.numeral.value? = some d.value := by
  have hwhole : d.whole.all Char.isDigit = true := List.all_eq_true.mpr d.isDigit
  have hfraction : ((d.fraction.map (·.text)).getD []).all Char.isDigit = true := by
    cases d.fraction with
    | none => rfl
    | some digits => exact List.all_eq_true.mpr digits.isDigit
  have hexponent : ((d.exponent.map fun e => (decide (e.sign = some .minus), e.digits.text)).map
      (·.2.all Char.isDigit)).getD true = true := by
    cases d.exponent with
    | none => rfl
    | some e => exact List.all_eq_true.mpr e.digits.isDigit
  have hascii : d.numeral.isAscii = true := by
    simp only [numeral, Numeral.isAscii, Numeral.digits, List.all_append, hwhole, hfraction,
      hexponent, Bool.and_self]
  rw [Numeral.value?, if_pos hascii, value]
  cases d.numeral.integer? <;> rfl

theorem scalar?_text (d : Number) : Literal.scalar? d.text = some d.value := by
  obtain ⟨c, tail, htext, hc⟩ : ∃ c tail, d.text = c :: tail ∧ Literal.isNumberStart c = true := by
    obtain ⟨c, tail, hbody, hc⟩ := d.exists_body_cons
    cases hsign : d.sign with
    | none =>
      refine ⟨c, tail, by rw [text, hsign, hbody]; rfl, ?_⟩
      rcases hc with hc | rfl
      · simp [Literal.isNumberStart, hc]
      · decide
    | some s => exact ⟨s.char, _, by rw [text, hsign, hbody]; rfl, by cases s <;> decide⟩
  have hread := d.read?_text
  rw [htext] at hread ⊢
  rw [Literal.scalar?_of_isNumberStart hc, Literal.number?, hread]
  exact d.value?_numeral

end Number

/-! ### The spelling of a text that is a number -/

def pointText : Option (List Char) → List Char
  | none => []
  | some digits => '.' :: digits

inductive SpellsExponent : Option (Bool × List Char) → List Char → Prop where
  | none : SpellsExponent none []
  | some {letter : Char} (sign : Option Sign) {digits : List Char}
    (isLetter : letter = 'e' ∨ letter = 'E') (ne_nil : digits ≠ [])
    (isDigit : ∀ c ∈ digits, isAnyDigit c = true) :
    SpellsExponent (some (decide (sign = some .minus), digits))
      (letter :: (signText sign ++ digits))

theorem exists_signText (text : List Char) : ∃ sign body, text = signText sign ++ body ∧
    Numeral.splitSign text = (decide (sign = some .minus), body) := by
  unfold Numeral.splitSign
  split
  · exact ⟨some .plus, _, rfl, rfl⟩
  · exact ⟨some .minus, _, rfl, rfl⟩
  · exact ⟨none, _, rfl, rfl⟩

theorem spellsExponent_of_readExponent {mantissa : Option (Bool × List Char) → Numeral}
    {text : List Char} {n : Numeral} (h : Numeral.readExponent mantissa text = some n) :
    ∃ exponent, n = mantissa exponent ∧ SpellsExponent exponent text := by
  cases text with
  | nil => exact ⟨none, (Option.some.inj h).symm, .none⟩
  | cons c text =>
    obtain ⟨sign, digits, htext, hsign⟩ := exists_signText text
    rw [Numeral.readExponent, hsign] at h
    dsimp only at h
    by_cases hdigits : (c = 'e' ∨ c = 'E') ∧ digits ≠ [] ∧ digits.all isAnyDigit = true
    · rw [if_pos hdigits] at h
      refine ⟨_, (Option.some.inj h).symm, ?_⟩
      rw [htext]
      exact .some sign hdigits.1 hdigits.2.1 (List.all_eq_true.mp hdigits.2.2)
    · rw [if_neg hdigits] at h
      cases h

theorem exists_spelling_of_read? {text : List Char} {n : Numeral} (htight : Text.Tight text)
    (h : Numeral.read? text = some n) : ∃ sign exponent,
      text = signText sign ++ (n.whole ++ (pointText n.fraction ++ exponent)) ∧
      SpellsExponent n.exponent exponent ∧ (∀ c ∈ n.digits, isAnyDigit c = true) ∧
      n.digits ≠ [] := by
  obtain ⟨sign, body, htext, hsign⟩ := exists_signText text
  have hdigits : ∀ rest : List Char, ∀ c ∈ rest.takeWhile isAnyDigit, isAnyDigit c = true :=
    fun rest => List.all_eq_true.mp List.all_takeWhile
  have hsplit : ∀ rest : List Char,
      rest.takeWhile isAnyDigit ++ rest.dropWhile isAnyDigit = rest :=
    fun _ => List.takeWhile_append_dropWhile
  rw [Numeral.read?, htight.trim_eq, hsign] at h
  dsimp only at h
  split at h
  · rename_i rest hdrop
    split at h
    · cases h
    · rename_i hne
      obtain ⟨exponent, rfl, hexponent⟩ := spellsExponent_of_readExponent h
      refine ⟨sign, _, ?_, hexponent, ?_, by simpa [Numeral.digits] using hne⟩
      · rw [pointText, List.cons_append, hsplit rest, ← hdrop, hsplit body, htext]
      · intro c hc
        rcases List.mem_append.mp hc with hc | hc
        · exact hdigits body c hc
        · exact hdigits rest c hc
  · split at h
    · cases h
    · rename_i hne
      obtain ⟨exponent, rfl, hexponent⟩ := spellsExponent_of_readExponent h
      refine ⟨sign, _, ?_, hexponent, ?_, by simpa [Numeral.digits] using hne⟩
      · rw [pointText, List.nil_append, hsplit body, htext]
      · intro c hc
        exact hdigits body c (by simpa [Numeral.digits] using hc)

theorem forall_mem_of_isNumber {text : List Char} (htight : Text.Tight text)
    (h : Literal.isNumber text = true) {P : Char → Prop}
    (hdigit : ∀ c, isAnyDigit c = true → P c) (hother : ∀ c ∈ ['+', '-', '.', 'e', 'E'], P c) :
    ∀ c ∈ text, P c := by
  have hsign : ∀ s : Sign, P s.char := by
    intro s
    cases s <;> exact hother _ (by decide)
  obtain ⟨n, hread⟩ := Option.isSome_iff_exists.mp h
  obtain ⟨sign, exponent, rfl, hexponent, hdigits, -⟩ := exists_spelling_of_read? htight hread
  have hall : ∀ c ∈ n.whole ++ n.fraction.getD [], P c := fun c hc => hdigit c (hdigits c hc)
  intro c hc
  simp only [List.mem_append] at hc
  rcases hc with hc | hc | hc | hc
  · exact forall_mem_signText hsign sign c hc
  · exact hall c (List.mem_append_left _ hc)
  · cases hfraction : n.fraction with
    | none => simp [hfraction, pointText] at hc
    | some digits =>
      rw [hfraction] at hc hall
      rcases List.mem_cons.mp hc with rfl | hc
      · exact hother _ (by decide)
      · exact hall c (List.mem_append_right _ hc)
  · generalize n.exponent = spelled at hexponent
    cases hexponent with
    | none => cases hc
    | some sign hletter hne hisDigit =>
      rcases List.mem_cons.mp hc with rfl | hc
      · rcases hletter with rfl | rfl <;> exact hother _ (by decide)
      rcases List.mem_append.mp hc with hc | hc
      · exact forall_mem_signText hsign _ c hc
      · exact hdigit c (hisDigit c hc)

end DocQuery.Where
