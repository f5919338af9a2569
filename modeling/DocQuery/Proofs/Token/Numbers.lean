import DocQuery.Proofs.Token.Relexing
import DocQuery.Proofs.Where.Number

/-! The texts of number tokens. They are decimals, each with one point at most, but for those that
start with a point: what is read behind it may have a point of its own. -/

namespace DocQuery

namespace Where

/-! ### Points in a number -/

theorem count_point_digits {digits : List Char} (h : ∀ c ∈ digits, isAnyDigit c = true) :
    digits.count '.' = 0 := by
  rw [List.count_eq_zero]
  exact fun hmem => absurd (h '.' hmem) (by decide)

theorem count_point_signText (sign : Option Sign) : (signText sign).count '.' = 0 := by
  rcases sign with _ | _ | _ <;> rfl

theorem SpellsExponent.count_point {exponent : Option (Bool × List Char)} {text : List Char}
    (h : SpellsExponent exponent text) : text.count '.' = 0 := by
  cases h with
  | none => rfl
  | @some letter sign digits isLetter ne_nil isDigit =>
    have hletter : [letter].count '.' = 0 := by rcases isLetter with rfl | rfl <;> rfl
    rw [← List.singleton_append, List.count_append, List.count_append, hletter,
      count_point_signText, count_point_digits isDigit]

theorem count_point_le_of_isNumber {text : List Char} (htight : Text.Tight text)
    (h : Literal.isNumber text = true) : text.count '.' ≤ 1 := by
  obtain ⟨n, hread⟩ := Option.isSome_iff_exists.mp h
  obtain ⟨sign, exponent, rfl, hexponent, hdigits, -⟩ := exists_spelling_of_read? htight hread
  have hwhole : n.whole.count '.' = 0 :=
    count_point_digits fun c hc => hdigits c (List.mem_append_left _ hc)
  have hpoint : (pointText n.fraction).count '.' ≤ 1 := by
    cases hfraction : n.fraction with
    | none => exact Nat.zero_le 1
    | some digits =>
      have hzero : digits.count '.' = 0 := by
        refine count_point_digits fun c hc => hdigits c ?_
        rw [Numeral.digits, hfraction]
        exact List.mem_append_right _ hc
      rw [pointText, List.count_cons_self]
      omega
  have hsign := count_point_signText sign
  have hend := hexponent.count_point
  simp only [List.count_append]
  omega

end Where

namespace Lexeme

open Where (Digits Number exponentText fractionText signText)

/-- Digits, at most one point with digits behind it, and at most one exponent. -/
def IsDecimal (text : List Char) : Prop :=
  ∃ d : Number, d.sign = none ∧ d.whole ≠ [] ∧ d.text = text

theorem IsDecimal.isNumber {text : List Char} (h : IsDecimal text) :
    Literal.isNumber text = true := by
  obtain ⟨d, -, -, rfl⟩ := h
  rw [Literal.isNumber, d.read?_text]
  rfl

theorem IsDecimal.solid {text : List Char} (h : IsDecimal text) : Text.Solid text := by
  obtain ⟨d, -, -, rfl⟩ := h
  exact d.solid

theorem IsDecimal.head_ne_point {text : List Char} (h : IsDecimal text) :
    text.head? ≠ some '.' := by
  obtain ⟨d, hsign, hwhole, rfl⟩ := h
  obtain ⟨c, tail, htail⟩ := List.exists_cons_of_ne_nil hwhole
  have hc : c.isDigit = true := d.isDigit c (by simp [htail])
  rw [Number.text, Number.body, hsign, htail]
  rintro ⟨rfl⟩
  exact absurd hc (by decide)

theorem IsDecimal.cons_point {text : List Char} (h : IsDecimal text) (hpoint : '.' ∉ text) :
    IsDecimal ('0' :: '.' :: text) := by
  obtain ⟨d, hsign, hwhole, rfl⟩ := h
  have hfraction : d.fraction = none := by
    cases hsome : d.fraction with
    | none => rfl
    | some digits => exact absurd (by simp [Number.text, Number.body, hsome, fractionText]) hpoint
  let behind : Digits := ⟨d.whole, hwhole, d.isDigit⟩
  refine ⟨⟨none, ['0'], some behind, d.exponent, by decide, fun h => by cases h⟩, rfl,
    by simp, ?_⟩
  simp [Number.text, Number.body, hsign, hfraction, fractionText, signText, behind]

/-! ### Scanning -/

theorem exists_digits {text : List Char} (h : digitsLength text ≠ 0) :
    ∃ digits : Digits, text.take (digitsLength text) = digits.text := by
  have htake := List.prefix_iff_eq_take.mp (List.takeWhile_prefix Char.isDigit (l := text))
  have hne : text.takeWhile Char.isDigit ≠ [] := fun hnil => h (by rw [digitsLength, hnil]; rfl)
  exact ⟨⟨_, hne, List.all_eq_true.mp List.all_takeWhile⟩, htake.symm⟩

theorem exists_fractionText (text : List Char) :
    ∃ fraction, text.take (fractionLength text) = fractionText fraction := by
  fun_cases fractionLength text with
  | case1 => exact ⟨none, rfl⟩
  | case2 text hdigits =>
    obtain ⟨digits, htake⟩ := exists_digits hdigits
    exact ⟨some digits, by rw [List.take_succ_cons, htake]; rfl⟩
  | case3 => exact ⟨none, rfl⟩

theorem exists_signText (text : List Char) :
    ∃ sign, text.take (signLength text) = signText sign := by
  fun_cases signLength text with
  | case1 d text hsign =>
    rcases hsign with rfl | rfl
    · exact ⟨some .plus, rfl⟩
    · exact ⟨some .minus, rfl⟩
  | case2 => exact ⟨none, rfl⟩
  | case3 => exact ⟨none, rfl⟩

theorem exists_exponentText (text : List Char) :
    ∃ exponent, text.take (exponentLength text) = exponentText exponent := by
  cases text with
  | nil => exact ⟨none, rfl⟩
  | cons e text =>
    rw [exponentLength_cons]
    by_cases he : e = 'e' ∨ e = 'E'
    · rw [if_pos he]
      by_cases hdigits : digitsLength (text.drop (signLength text)) = 0
      · exact ⟨none, by rw [if_pos hdigits]; rfl⟩
      · obtain ⟨digits, htake⟩ := exists_digits hdigits
        obtain ⟨sign, hsign⟩ := exists_signText text
        refine ⟨some ⟨e, sign, digits, he⟩, ?_⟩
        rw [if_neg hdigits, List.take_succ_cons, Nat.add_comm, List.take_add, htake, hsign]
        rfl
    · exact ⟨none, by rw [if_neg he]; rfl⟩

theorem isDecimal_take {text : List Char} (h : digitsLength text ≠ 0) :
    IsDecimal (text.take (numberLength text)) := by
  obtain ⟨whole, hwhole⟩ := exists_digits h
  obtain ⟨fraction, hfraction⟩ := exists_fractionText (text.drop (digitsLength text))
  obtain ⟨exponent, hexponent⟩ := exists_exponentText
    (text.drop (digitsLength text + fractionLength (text.drop (digitsLength text))))
  refine ⟨⟨none, whole.text, fraction, exponent, whole.isDigit, fun _ => whole.ne_nil⟩, rfl,
    whole.ne_nil, ?_⟩
  simp only [numberLength, List.take_add, hwhole, hfraction, hexponent, List.append_assoc]
  rfl

/-! ### Tokens -/

/-- The text of a number token and its value. A point may stand in front of any decimal, also of one
that has a point of its own. -/
inductive NumberText : List Char → List Char → Prop where
  | plain {text : List Char} (decimal : IsDecimal text) : NumberText text text
  | pointed {text : List Char} (decimal : IsDecimal text) :
    NumberText ('.' :: text) ('0' :: '.' :: text)

/-- There is no second point behind a leading one. -/
def SinglePointed (text : List Char) : Prop :=
  text.head? = some '.' → '.' ∉ text.tail

instance (text : List Char) : Decidable (SinglePointed text) :=
  inferInstanceAs (Decidable (_ → _))

section NumberText

variable {text value : List Char}

theorem NumberText.value_eq (h : NumberText text value) :
    value = if text.head? = some '.' then '0' :: text else text := by
  cases h with
  | plain decimal => rw [if_neg decimal.head_ne_point]
  | pointed decimal => rfl

theorem NumberText.isDecimal (h : NumberText text value) (hpoint : SinglePointed text) :
    IsDecimal value := by
  cases h with
  | plain decimal => exact decimal
  | pointed decimal => exact decimal.cons_point (hpoint rfl)

theorem NumberText.singlePointed (h : NumberText text value)
    (hnumber : Literal.isNumber value = true) : SinglePointed text := by
  intro hhead
  cases h with
  | plain decimal => exact absurd hhead decimal.head_ne_point
  | @pointed text decimal =>
    have hblank : ∀ c ∈ '0' :: '.' :: text, isBlank c = false := by
      simpa +decide using decimal.solid.not_blank
    -- The leading point is the only one that a number can have.
    have hcount := Where.count_point_le_of_isNumber (Text.tight_of_not_blank hblank) hnumber
    have hzero : text.count '.' = 0 := by simpa using hcount
    exact List.count_eq_zero.mp hzero

end NumberText

theorem numberText_of_next {c : Char} {text : List Char} {value : String} {n : Nat}
    (h : next c text = .ok (.number value, n)) : NumberText (c :: text.take n) value.toList := by
  fun_cases next c text
  case case6 hdigits _ =>
    rw [next, if_neg hdigits] at h
    simp only [Except.ok.injEq, Prod.mk.injEq, Token.number.injEq] at h
    obtain ⟨rfl, rfl⟩ := h
    rw [String.toList_ofList]
    exact .pointed (isDecimal_take hdigits)
  case case28 hdigit _ =>
    rw [next_of_isDigit hdigit] at h
    simp only [Except.ok.injEq, Prod.mk.injEq, Token.number.injEq] at h
    obtain ⟨rfl, rfl⟩ := h
    have hdigits : digitsLength (c :: text) ≠ 0 := by simp [digitsLength, hdigit]
    rw [String.toList_ofList, take_numberLength_pred hdigit]
    exact .plain (isDecimal_take hdigits)
  all_goals simp_all [next, quotedToken_ne]

theorem numberText_of_all {source : List Char} {ls : List Lexeme} (h : all source = .ok ls) :
    ∀ l ∈ ls, ∀ value, l.token = .number value → NumberText l.text value.toList := by
  refine forall_mem_of_all (fun _ _ htoken => by cases htoken) ?_ h
  intro c text token n _ hnext value htoken
  simp only at htoken
  rw [htoken] at hnext
  exact numberText_of_next hnext

theorem numberText_of_ofSource {sql : String} {ls : List Lexeme} (h : ofSource sql = .ok ls)
    {s : Nat × Nat × Lexeme} (hs : s ∈ spans 0 ls) {value : String}
    (htoken : s.2.2.token = .number value) :
    NumberText (sql.toList.extract s.1 s.2.1) value.toList := by
  have hall := ofSource_eq_ok_iff.mp h
  have hmem : s.2.2 ∈ ls := by
    rw [← map_spans 0 ls]
    exact List.mem_map_of_mem hs
  rw [← (segmented_of_all hall).1, extract_of_mem_spans hs]
  exact numberText_of_all hall _ hmem value htoken

/-- The value of a number token is its slice, with a zero in front of a leading point. It is a
number, and a decimal, if and only if no second point stands behind a leading one. -/
theorem numberToken_isDecimal_iff {sql : String} {ls : List Lexeme} (h : ofSource sql = .ok ls)
    {s : Nat × Nat × Lexeme} (hs : s ∈ spans 0 ls) {value : String}
    (htoken : s.2.2.token = .number value) :
    let slice := sql.toList.extract s.1 s.2.1
    value.toList = (if slice.head? = some '.' then '0' :: slice else slice) ∧
      (Literal.isNumber value.toList = true ↔ SinglePointed slice) ∧
      (IsDecimal value.toList ↔ SinglePointed slice) := by
  intro slice
  have htext : NumberText slice value.toList := numberText_of_ofSource h hs htoken
  refine ⟨htext.value_eq, ⟨htext.singlePointed, fun hpoint => ?_⟩, fun hdecimal => ?_,
    htext.isDecimal⟩
  · exact (htext.isDecimal hpoint).isNumber
  · exact htext.singlePointed hdecimal.isNumber

theorem numberToken_isDecimal_iff_adjoining :
    let sql := "1.5.25e-3 .5.5"
    let single : Lexeme := ⟨[], ".25e-3".toList, .number "0.25e-3"⟩
    let double : Lexeme := ⟨[' '], ".5.5".toList, .number "0.5.5"⟩
    let ls : List Lexeme :=
      [⟨[], "1.5".toList, .number "1.5"⟩, single, double, ⟨[], [], .eof⟩]
    ofSource sql = .ok ls ∧ (3, 9, single) ∈ spans 0 ls ∧ (10, 14, double) ∈ spans 0 ls ∧
      ("0.25e-3".toList = '0' :: ".25e-3".toList ∧ Literal.isNumber "0.25e-3".toList = true ∧
        IsDecimal "0.25e-3".toList) ∧
      "0.5.5".toList = '0' :: ".5.5".toList ∧ ¬ Literal.isNumber "0.5.5".toList = true ∧
        ¬ IsDecimal "0.5.5".toList := by
  intro sql single double ls
  have hls : ofSource sql = .ok ls := Statement.eq_ok_of_toOption (by decide +kernel)
  have hsingle : (3, 9, single) ∈ spans 0 ls := by decide
  have hdouble : (10, 14, double) ∈ spans 0 ls := by decide
  obtain ⟨hvalue, hnumber, hdecimal⟩ := numberToken_isDecimal_iff hls hsingle rfl
  obtain ⟨hvalue', hnumber', hdecimal'⟩ := numberToken_isDecimal_iff hls hdouble rfl
  exact ⟨hls, hsingle, hdouble,
    ⟨hvalue.trans (by decide), hnumber.mpr (by decide), hdecimal.mpr (by decide)⟩,
    hvalue'.trans (by decide), hnumber'.not.mpr (by decide), hdecimal'.not.mpr (by decide)⟩

/-- What is read behind the leading point takes a point and digits again. -/
theorem numberToken_two_points :
    ofSource ".5.5" = .ok [⟨[], ".5.5".toList, .number "0.5.5"⟩, ⟨[], [], .eof⟩] ∧
      Literal.isNumber "0.5.5".toList = false ∧ ¬ IsDecimal "0.5.5".toList := by
  have hnumber : Literal.isNumber "0.5.5".toList = false := by decide +kernel
  refine ⟨Statement.eq_ok_of_toOption (by decide +kernel), hnumber, fun hdecimal => ?_⟩
  rw [hdecimal.isNumber] at hnumber
  cases hnumber

end Lexeme

end DocQuery
