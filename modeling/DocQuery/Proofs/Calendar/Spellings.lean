import DocQuery.Calendar.Spelling
import DocQuery.Proofs.Text.Classes

/-! No text has two spellings: what stands behind the date tells which one it may be, so the order
in which spellings are tried is of no account. -/

namespace DocQuery.Spelling

/-! ### What the parts of a spelling read -/

theorem eq_cons_of_literal {c : Char} {text rest : List Char} (h : literal c text = some rest) :
    text = c :: rest := by
  cases text with
  | nil => cases h
  | cons d text =>
    simp only [literal, Option.ite_none_right_eq_some, Option.some.injEq] at h
    rw [h.1, h.2]

theorem exists_of_number {n k : Nat} {text rest : List Char}
    (h : number n text = some (k, rest)) :
    ∃ digits, text = digits ++ rest ∧ digits.length = n ∧ ∀ c ∈ digits, c.isDigit = true := by
  simp only [number, Option.ite_none_right_eq_some, Option.some.injEq, Prod.mk.injEq,
    List.all_eq_true] at h
  obtain ⟨⟨hlength, hdigits⟩, -, rfl⟩ := h
  exact ⟨text.take n, (List.take_append_drop n text).symm, hlength, hdigits⟩

theorem exists_of_fraction {limit nanos : Nat} {text rest : List Char}
    (h : fraction limit text = some (nanos, rest)) :
    ∃ digits, text = digits ++ rest ∧ ∀ c ∈ digits, c.isDigit = true := by
  simp only [fraction, Option.ite_none_left_eq_some, Option.some.injEq, Prod.mk.injEq] at h
  obtain ⟨-, -, rfl⟩ := h
  have hprefix := (List.takeWhile_prefix Char.isDigit).trans (List.take_prefix limit text)
  exact ⟨_, (List.prefix_iff_eq_append.mp hprefix).symm, List.all_eq_true.mp List.all_takeWhile⟩

theorem eq_nil_of_atEnd {α : Type} {part : Option (α × List Char)} {result : α}
    (h : part.bind atEnd = some result) : part = some (result, []) := by
  obtain ⟨⟨found, rest⟩, hpart, hend⟩ := Option.bind_eq_some_iff.mp h
  cases rest with
  | nil => rw [hpart, Option.some.inj hend]
  | cons c rest => cases hend

theorem signedYear_of_plainYear {text : List Char} {result : Int × List Char}
    (h : plainYear text = some result) : signedYear text = some result := by
  obtain ⟨⟨year, rest⟩, hnumber, -⟩ := Option.map_eq_some_iff.mp h
  obtain ⟨digits, rfl, hlength, hdigits⟩ := exists_of_number hnumber
  obtain ⟨d, digits, rfl⟩ := List.exists_cons_of_length_pos (by omega : 0 < digits.length)
  have hd : d.isDigit = true := hdigits d List.mem_cons_self
  unfold signedYear
  split
  · rename_i heq
    cases heq
    cases hd
  · rename_i heq
    cases heq
    cases hd
  · exact h

theorem date_of_plainYear {text : List Char} {result : Date × List Char}
    (h : date plainYear text = some result) : date signedYear text = some result := by
  obtain ⟨year, hyear, hrest⟩ := Option.bind_eq_some_iff.mp h
  exact Option.bind_eq_some_iff.mpr ⟨year, signedYear_of_plainYear hyear, hrest⟩

theorem eq_drop_of_clock {d : Date} {m : Moment} {text rest : List Char}
    (h : clock d text = some (m, rest)) : rest = text.drop 8 := by
  simp only [clock, Option.bind_eq_bind, Option.bind_eq_some_iff] at h
  obtain ⟨⟨hour, text₁⟩, hhour, text₂, hcolon, ⟨minute, text₃⟩, hminute, text₄, hcolon',
    ⟨second, text₅⟩, hsecond, hresult⟩ := h
  cases hresult
  obtain ⟨hours, rfl, hhours, -⟩ := exists_of_number hhour
  cases eq_cons_of_literal hcolon
  obtain ⟨minutes, rfl, hminutes, -⟩ := exists_of_number hminute
  cases eq_cons_of_literal hcolon'
  obtain ⟨seconds, rfl, hseconds, -⟩ := exists_of_number hsecond
  have hlength : (hours ++ ':' :: (minutes ++ ':' :: seconds)).length = 8 := by
    simp only [List.length_append, List.length_cons]
    omega
  have hdrop : (hours ++ ':' :: (minutes ++ ':' :: seconds) ++ text₅).drop 8 = text₅ :=
    List.drop_left' hlength
  simpa using hdrop.symm

/-! ### Offsets -/

def sign (negative : Bool) : Char :=
  if negative then '-' else '+'

theorem offset_sign (negative : Bool) (maxHour : Nat)
    (separator : List Char → Option (List Char)) (text : List Char) :
    offset maxHour separator (sign negative :: text) =
      (number 2 text).bind fun hour => (separator hour.2).bind fun behind =>
        (number 2 behind).bind fun minute =>
          if hour.1 ≤ maxHour ∧ minute.1 ≤ 59 then
            let seconds : Int := hour.1 * 3600 + minute.1 * 60
            some (if negative then -seconds else seconds, minute.2)
          else none := by
  cases negative <;> rfl

theorem exists_sign_of_offset {maxHour : Nat} {separator : List Char → Option (List Char)}
    {text : List Char} {result : Int × List Char}
    (h : offset maxHour separator text = some result) :
    ∃ negative tail, text = sign negative :: tail := by
  unfold offset at h
  split at h
  · exact ⟨false, _, rfl⟩
  · exact ⟨true, _, rfl⟩
  · cases h

theorem exists_of_offset {maxHour : Nat} {separator : List Char → Option (List Char)}
    {text rest : List Char} {o : Int} (h : offset maxHour separator text = some (o, rest)) :
    ∃ negative hours behind minutes, (∀ c ∈ hours, c.isDigit = true) ∧
      (∀ c ∈ minutes, c.isDigit = true) ∧ text = sign negative :: (hours ++ behind) ∧
      separator behind = some (minutes ++ rest) := by
  obtain ⟨negative, tail, rfl⟩ := exists_sign_of_offset h
  simp only [offset_sign, Option.bind_eq_some_iff] at h
  obtain ⟨⟨hour, behind⟩, hhour, text₂, hseparator, ⟨minute, text₃⟩, hminute, hresult⟩ := h
  obtain ⟨hours, rfl, -, hhours⟩ := exists_of_number hhour
  obtain ⟨minutes, rfl, -, hminutes⟩ := exists_of_number hminute
  simp only [Option.ite_none_right_eq_some, Option.some.injEq, Prod.mk.injEq] at hresult
  obtain ⟨-, -, rfl⟩ := hresult
  exact ⟨negative, hours, behind, minutes, hhours, hminutes, rfl, hseparator⟩

/-- What a zone with a colon or a letter has, and no other ending. -/
def isZoneMark (c : Char) : Bool :=
  [':', 'Z', 'z'].contains c

theorem isZoneMark_of_isDigit {c : Char} (h : c.isDigit = true) : isZoneMark c = false := by
  rw [isZoneMark, ← Bool.not_eq_true, List.contains_iff_mem]
  exact notMem_of_class h (by decide)

theorem any_isZoneMark_of_zone {text rest : List Char} {o : Int}
    (h : zone text = some (o, rest)) : text.any isZoneMark = true := by
  unfold zone at h
  split at h
  · rfl
  · rfl
  · obtain ⟨negative, hours, behind, minutes, -, -, rfl, hcolon⟩ := exists_of_offset h
    cases eq_cons_of_literal hcolon
    simp [isZoneMark]

theorem compact_of_offset {maxHour : Nat} {text : List Char} {o : Int}
    (h : offset maxHour some text = some (o, [])) : text.any isZoneMark = false := by
  obtain ⟨negative, hours, behind, minutes, hhours, hminutes, rfl, hbehind⟩ := exists_of_offset h
  cases hbehind
  rw [List.any_eq_false]
  intro c hc
  rw [Bool.not_eq_true]
  simp only [List.append_nil, List.mem_cons, List.mem_append] at hc
  rcases hc with rfl | hc | hc
  · cases negative <;> rfl
  · exact isZoneMark_of_isDigit (hhours c hc)
  · exact isZoneMark_of_isDigit (hminutes c hc)

/-! ### Telling the spelling -/

/-- The spelling of a text whose date is followed by `separator`, and whose clock by `ending`. -/
def ofEnding (separator : Char) (ending : List Char) : Spelling :=
  if ending = [] then if separator = ' ' then spaced else joined
  else if ending.any isZoneMark then colonOffset
  else if ending.head? = some '.' then compactOffsetFraction
  else compactOffset

/-- The spelling of a text, from what follows its date. -/
def ofRest : List Char → Spelling
  | [] => dateOnly
  | separator :: text => ofEnding separator (text.drop 8)

def told (text : List Char) : Option Spelling :=
  (date signedYear text).map fun found => ofRest found.2

theorem told_of_clock {d : Date} {m : Moment} {separator : Char} {text rest ending : List Char}
    (hdate : date signedYear text = some (d, separator :: rest))
    (hclock : clock d rest = some (m, ending)) : told text = some (ofEnding separator ending) := by
  rw [told, hdate, eq_drop_of_clock hclock]
  rfl

theorem ofEnding_of_zone {ending zoneText rest : List Char} {o : Int} (separator : Char)
    (hsuffix : zoneText <:+ ending) (h : zone zoneText = some (o, rest)) :
    ofEnding separator ending = colonOffset := by
  have hany := any_isZoneMark_of_zone h
  have hmark : ending.any isZoneMark = true := by
    rw [List.any_eq_true] at hany ⊢
    obtain ⟨c, hc, hmark⟩ := hany
    exact ⟨c, hsuffix.subset hc, hmark⟩
  have hne : ending ≠ [] := by
    rintro rfl
    cases hmark
  rw [ofEnding, if_neg hne, if_pos hmark]

theorem ofEnding_of_offset {maxHour : Nat} {ending : List Char} {o : Int} (separator : Char)
    (h : offset maxHour some ending = some (o, [])) :
    ofEnding separator ending = compactOffset := by
  have hmark := compact_of_offset h
  obtain ⟨negative, tail, rfl⟩ := exists_sign_of_offset h
  have hpoint : (sign negative :: tail).head? ≠ some '.' := by
    cases negative <;> simp [sign]
  rw [ofEnding, if_neg (List.cons_ne_nil _ _), if_neg (by simp [hmark]), if_neg hpoint]

theorem ofEnding_of_fraction {limit maxHour nanos : Nat} {text offsetText : List Char} {o : Int}
    (separator : Char) (hfraction : fraction limit text = some (nanos, offsetText))
    (h : offset maxHour some offsetText = some (o, [])) :
    ofEnding separator ('.' :: text) = compactOffsetFraction := by
  obtain ⟨digits, rfl, hdigits⟩ := exists_of_fraction hfraction
  have hmark := compact_of_offset h
  have hnone : ('.' :: (digits ++ offsetText)).any isZoneMark = false := by
    rw [List.any_cons, List.any_append, hmark, Bool.or_false]
    have : digits.any isZoneMark = false := by
      rw [List.any_eq_false]
      intro c hc
      rw [isZoneMark_of_isDigit (hdigits c hc)]
      exact Bool.false_ne_true
    rw [this]
    rfl
  rw [ofEnding, if_neg (List.cons_ne_nil _ _), if_neg (by simp [hnone])]
  rfl

theorem exists_of_colonOffset {text : List Char} {i : Int} (h : read colonOffset text = some i) :
    ∃ d separator rest m ending zoneText o, date plainYear text = some (d, separator :: rest) ∧
      clock d rest = some (m, ending) ∧ zoneText <:+ ending ∧ zone zoneText = some (o, []) := by
  obtain ⟨⟨d, text₁⟩, hdate, h⟩ := Option.bind_eq_some_iff.mp h
  cases text₁ with
  | nil => cases h
  | cons separator rest =>
    simp only [Option.bind_eq_bind, Option.bind_some] at h
    split at h
    · obtain ⟨⟨m, ending⟩, hclock, h⟩ := Option.bind_eq_some_iff.mp h
      split at h
      · rename_i behind hpoint
        obtain ⟨⟨nanos, zoneText⟩, hfraction, h⟩ := Option.bind_eq_some_iff.mp h
        obtain ⟨o, hzone, -⟩ := Option.bind_eq_some_iff.mp h
        obtain ⟨digits, rfl, -⟩ := exists_of_fraction hfraction
        have hsuffix : zoneText <:+ ending := ⟨'.' :: digits, hpoint.symm⟩
        exact ⟨d, separator, rest, m, ending, zoneText, o, hdate, hclock, hsuffix,
          eq_nil_of_atEnd hzone⟩
      · obtain ⟨o, hzone, -⟩ := Option.bind_eq_some_iff.mp h
        exact ⟨d, separator, rest, m, ending, ending, o, hdate, hclock, List.suffix_refl _,
          eq_nil_of_atEnd hzone⟩
    · cases h

theorem told_of_read {spelling : Spelling} {text : List Char} {i : Int}
    (h : read spelling text = some i) : told text = some spelling := by
  -- The date and the clock are read alike in all spellings. What comes between and behind them
  -- tells the spellings apart.
  cases spelling with
  | colonOffset =>
    obtain ⟨d, separator, rest, m, ending, zoneText, o, hdate, hclock, hsuffix, hzone⟩ :=
      exists_of_colonOffset h
    rw [told_of_clock (date_of_plainYear hdate) hclock, ofEnding_of_zone separator hsuffix hzone]
  | compactOffset =>
    obtain ⟨⟨d, text₁⟩, hdate, h⟩ := Option.bind_eq_some_iff.mp h
    obtain ⟨text₂, hseparator, h⟩ := Option.bind_eq_some_iff.mp h
    obtain ⟨⟨m, text₃⟩, hclock, h⟩ := Option.bind_eq_some_iff.mp h
    obtain ⟨o, hoffset, -⟩ := Option.bind_eq_some_iff.mp h
    cases eq_cons_of_literal hseparator
    rw [told_of_clock hdate hclock, ofEnding_of_offset 'T' (eq_nil_of_atEnd hoffset)]
  | compactOffsetFraction =>
    obtain ⟨⟨d, text₁⟩, hdate, h⟩ := Option.bind_eq_some_iff.mp h
    obtain ⟨text₂, hseparator, h⟩ := Option.bind_eq_some_iff.mp h
    obtain ⟨⟨m, text₃⟩, hclock, h⟩ := Option.bind_eq_some_iff.mp h
    obtain ⟨text₄, hpoint, h⟩ := Option.bind_eq_some_iff.mp h
    obtain ⟨⟨nanos, text₅⟩, hfraction, h⟩ := Option.bind_eq_some_iff.mp h
    obtain ⟨o, hoffset, -⟩ := Option.bind_eq_some_iff.mp h
    cases eq_cons_of_literal hseparator
    cases eq_cons_of_literal hpoint
    rw [told_of_clock hdate hclock, ofEnding_of_fraction 'T' hfraction (eq_nil_of_atEnd hoffset)]
  | spaced =>
    obtain ⟨⟨d, text₁⟩, hdate, h⟩ := Option.bind_eq_some_iff.mp h
    obtain ⟨text₂, hseparator, h⟩ := Option.bind_eq_some_iff.mp h
    obtain ⟨m, hclock, -⟩ := Option.bind_eq_some_iff.mp h
    cases eq_cons_of_literal hseparator
    rw [told_of_clock hdate (eq_nil_of_atEnd hclock)]
    rfl
  | joined =>
    obtain ⟨⟨d, text₁⟩, hdate, h⟩ := Option.bind_eq_some_iff.mp h
    obtain ⟨text₂, hseparator, h⟩ := Option.bind_eq_some_iff.mp h
    obtain ⟨m, hclock, -⟩ := Option.bind_eq_some_iff.mp h
    cases eq_cons_of_literal hseparator
    rw [told_of_clock hdate (eq_nil_of_atEnd hclock)]
    rfl
  | dateOnly =>
    obtain ⟨d, hdate, -⟩ := Option.bind_eq_some_iff.mp h
    rw [told, eq_nil_of_atEnd hdate]
    rfl

theorem eq_of_read {s t : Spelling} {text : List Char} {i j : Int} (hs : read s text = some i)
    (ht : read t text = some j) : s = t :=
  Option.some.inj ((told_of_read hs).symm.trans (told_of_read ht))

/-! ### Trying spellings -/

theorem findSome?_read {spellings : List Spelling} {spelling : Spelling} {text : List Char}
    {i : Int} (hmem : spelling ∈ spellings) (h : read spelling text = some i) :
    (spellings.findSome? fun s => read s text) = some i := by
  induction spellings with
  | nil => cases hmem
  | cons s spellings ih =>
    rw [List.findSome?_cons]
    cases hs : read s text with
    | some j =>
      cases eq_of_read hs h
      rw [← hs, h]
    | none =>
      rcases List.mem_cons.mp hmem with rfl | hmem
      · rw [hs] at h
        cases h
      · exact ih hmem

theorem mem_all (spelling : Spelling) : spelling ∈ all := by
  cases spelling <;> decide

theorem readMillis_of_read {spelling : Spelling} {text : List Char} {i : Int}
    (h : read spelling text = some i) : readMillis text = some (i.tdiv 1000000) := by
  rw [readMillis, findSome?_read (mem_all spelling) h]
  rfl

theorem findSome?_of_perm {order : List Spelling} (horder : order.Perm all) (text : List Char) :
    (order.findSome? fun s => read s text) = all.findSome? fun s => read s text := by
  cases h : order.findSome? fun s => read s text with
  | none =>
    rw [List.findSome?_eq_none_iff] at h
    rw [eq_comm, List.findSome?_eq_none_iff]
    exact fun s hs => h s (horder.mem_iff.mpr hs)
  | some i =>
    obtain ⟨s, -, hs⟩ := List.exists_of_findSome?_eq_some h
    rw [findSome?_read (mem_all s) hs]

end DocQuery.Spelling
