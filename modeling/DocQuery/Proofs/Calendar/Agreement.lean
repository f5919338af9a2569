import DocQuery.Inline
import DocQuery.Proofs.Calendar.Days
import DocQuery.Proofs.Calendar.Spellings
import DocQuery.Proofs.Text.Trim

/-! The spellings of one moment are read as the same instant, which is counted in days from the
epoch. -/

namespace DocQuery

/-! ### Padded numbers -/

namespace Text

theorem isDigit_of_mem_padded {width n : Nat} {c : Char} (h : c ∈ padded width n) :
    c.isDigit = true := by
  rw [padded, List.mem_append] at h
  rcases h with h | h
  · rw [List.eq_of_mem_replicate h]
    rfl
  · exact Nat.isDigit_of_mem_toDigits (by decide) (by decide) h

theorem padded_ne_nil (width n : Nat) : padded width n ≠ [] :=
  List.append_ne_nil_of_right_ne_nil _ Nat.toDigits_ne_nil

theorem length_padded {width n : Nat} (h : (Nat.toDigits 10 n).length ≤ width) :
    (padded width n).length = width := by
  rw [padded, List.length_append, List.length_replicate]
  omega

theorem decimalValue_padded (width n : Nat) : decimalValue (padded width n) = n := by
  calc decimalValue (padded width n)
      = Nat.ofDigitChars 10 (padded width n) 0 := Nat.ofDigitChars_eq_foldl.symm
    _ = Nat.ofDigitChars 10 (Nat.toDigits 10 n) 0 := by
        rw [padded, Nat.ofDigitChars_append, Nat.ofDigitChars_replicate_zero, Nat.mul_zero]
    _ = n := Nat.ofDigitChars_ten_toDigits

theorem tight_padded (n k width width' : Nat) (between : List Char) :
    Tight (padded width n ++ (between ++ padded width' k)) := by
  have hdigit : ∀ {width n : Nat} {c : Char}, c ∈ padded width n → isBlank c = false :=
    fun h => isBlank_of_isDigit (isDigit_of_mem_padded h)
  constructor
  · intro c hc
    rw [List.head?_append, List.head?_eq_some_head (padded_ne_nil width n), Option.some_or] at hc
    cases hc
    exact hdigit (List.head_mem _)
  · intro c hc
    rw [← List.append_assoc, List.getLast?_append,
      List.getLast?_eq_some_getLast (padded_ne_nil width' k), Option.some_or] at hc
    cases hc
    exact hdigit (List.getLast_mem _)

end Text

open Text (padded)

theorem Spelling.number_padded {width n : Nat} (h : (Nat.toDigits 10 n).length ≤ width)
    (rest : List Char) : number width (padded width n ++ rest) = some (n, rest) := by
  have hlength := Text.length_padded h
  have htake : (padded width n ++ rest).take width = padded width n := List.take_left' hlength
  have hdrop : (padded width n ++ rest).drop width = rest := List.drop_left' hlength
  have hdigits : (padded width n).all Char.isDigit = true :=
    List.all_eq_true.mpr fun _ => Text.isDigit_of_mem_padded
  rw [number, htake, hdrop, Text.decimalValue_padded]
  exact if_pos ⟨hlength, hdigits⟩

theorem Spelling.number_two {n : Nat} (h : n < 100) (rest : List Char) :
    number 2 (padded 2 n ++ rest) = some (n, rest) :=
  number_padded ((Nat.length_toDigits_le_iff (by decide) (by decide)).mpr h) rest

theorem Spelling.number_four {n : Nat} (h : n < 10000) (rest : List Char) :
    number 4 (padded 4 n ++ rest) = some (n, rest) :=
  number_padded ((Nat.length_toDigits_le_iff (by decide) (by decide)).mpr h) rest

theorem Spelling.literal_cons (c : Char) (rest : List Char) : literal c (c :: rest) = some rest :=
  if_pos rfl

/-! ### Dates and clocks -/

/-- The text such as `2020-12-12`. -/
def Date.text (d : Date) : List Char :=
  padded 4 d.year.natAbs ++ '-' :: (padded 2 d.month ++ '-' :: padded 2 d.day)

/-- The text such as `07:00:00`. -/
def Moment.clockText (m : Moment) : List Char :=
  padded 2 m.hour ++ ':' :: (padded 2 m.minute ++ ':' :: padded 2 m.second)

/-- A date and a clock with `separator` between them and `ending` behind them. -/
def Moment.text (m : Moment) (separator : Char) (ending : List Char) : List Char :=
  m.date.text ++ separator :: (m.clockText ++ ending)

def Moment.midnight (m : Moment) : Moment :=
  ⟨m.date, 0, 0, 0, 0⟩

/-- A moment of a year that is written with four digits. -/
structure Moment.Writable (m : Moment) : Prop where
  date : m.date.Valid
  year_nonneg : 0 ≤ m.date.year
  year_le : m.date.year ≤ 9999
  hour : m.hour < 24
  minute : m.minute < 60
  second : m.second < 60

theorem Moment.Writable.midnight {m : Moment} (h : m.Writable) : m.midnight.Writable :=
  ⟨h.date, h.year_nonneg, h.year_le, Nat.succ_pos 23, Nat.succ_pos 59, Nat.succ_pos 59⟩

namespace Spelling

variable {m : Moment}

theorem date_text (h : m.Writable) (rest : List Char) :
    date plainYear (m.date.text ++ rest) = some (m.date, rest) := by
  obtain ⟨hdate, hnonneg, hle, -, -, -⟩ := h
  have hmonth := hdate.month_le
  have hday := hdate.day_le
  have hdays := (Date.daysInMonth_mem m.date.year hdate.month_pos hmonth).2
  have hyear : m.date.year.natAbs < 10000 := by omega
  have habs : Int.ofNat m.date.year.natAbs = m.date.year := Int.natAbs_of_nonneg hnonneg
  rw [Date.text, List.append_assoc, List.cons_append, List.append_assoc, List.cons_append]
  simp only [date, plainYear, number_four hyear, Option.map_some, habs, Option.bind_eq_bind,
    Option.bind_some, literal_cons, number_two (by omega : m.date.month < 100),
    number_two (by omega : m.date.day < 100)]
  rfl

theorem clock_text (h : m.Writable) (rest : List Char) :
    clock m.date (m.clockText ++ rest) =
      some (⟨m.date, m.hour, m.minute, m.second, 0⟩, rest) := by
  obtain ⟨-, -, -, hhour, hminute, hsecond⟩ := h
  rw [Moment.clockText, List.append_assoc, List.cons_append, List.append_assoc, List.cons_append]
  simp only [clock, Option.bind_eq_bind, Option.bind_some, literal_cons,
    number_two (by omega : m.hour < 100), number_two (by omega : m.minute < 100),
    number_two (by omega : m.second < 100)]
  rfl

theorem instant_of_writable (h : m.Writable) (offset : Int) :
    instant ⟨m.date, m.hour, m.minute, m.second, 0⟩ offset =
      some ((m.seconds - offset) * 1000000000) := by
  have hvalid : Moment.isValid ⟨m.date, m.hour, m.minute, m.second, 0⟩ = true := by
    simp [Moment.isValid, Date.isValid_iff.mpr h.date, h.hour, h.minute, h.second]
  rw [instant, if_pos hvalid, Moment.nanoseconds]
  simp [Moment.seconds]

theorem leapInstant_of_writable (h : m.Writable) (offset : Int) :
    leapInstant ⟨m.date, m.hour, m.minute, m.second, 0⟩ offset =
      some ((m.seconds - offset) * 1000000000) := by
  have hsecond : m.second ≠ 60 := Nat.ne_of_lt h.second
  rw [leapInstant, if_neg hsecond]
  exact instant_of_writable h offset

end Spelling

/-! ### Offsets -/

/-- An offset from UTC as a clock shows it. -/
structure Offset where
  negative : Bool
  hours : Nat
  minutes : Nat
  hours_le : hours ≤ 23
  minutes_le : minutes ≤ 59

namespace Offset

def zero : Offset := ⟨false, 0, 0, by decide, by decide⟩

def seconds (o : Offset) : Int :=
  if o.negative then -(o.hours * 3600 + o.minutes * 60) else o.hours * 3600 + o.minutes * 60

/-- The text such as `+0700`, with `separator` between hours and minutes. -/
def text (o : Offset) (separator : List Char) : List Char :=
  Spelling.sign o.negative :: (padded 2 o.hours ++ (separator ++ padded 2 o.minutes))

end Offset

namespace Spelling

theorem offset_text (o : Offset) (between : List Char) {maxHour : Nat} (hmax : 23 ≤ maxHour)
    {separator : List Char → Option (List Char)}
    (hseparator : ∀ rest, separator (between ++ rest) = some rest) :
    offset maxHour separator (o.text between) = some (o.seconds, []) := by
  obtain ⟨negative, hours, minutes, hhours, hminutes⟩ := o
  have hminute := number_two (by omega : minutes < 100) []
  rw [List.append_nil] at hminute
  simp only [Offset.text, offset_sign, number_two (by omega : hours < 100), Option.bind_some,
    hseparator, hminute, Offset.seconds]
  exact if_pos ⟨Nat.le_trans hhours hmax, hminutes⟩

theorem zone_text (o : Offset) : zone (o.text [':']) = some (o.seconds, []) := by
  have hzone : zone (o.text [':']) = offset 23 (literal ':') (o.text [':']) := by
    rw [Offset.text]
    cases o.negative <;> rfl
  rw [hzone]
  exact offset_text o [':'] (Nat.le_refl 23) (literal_cons ':')

theorem fraction_zero (o : Offset) (between : List Char) :
    fraction 32 ('0' :: o.text between) = some (0, o.text between) := by
  rw [Offset.text]
  cases o.negative <;> rfl

/-! ### Reading a written moment -/

variable {m : Moment}

theorem read_colonOffset_text (h : m.Writable) (o : Offset) :
    read colonOffset (m.text 'T' (o.text [':'])) =
      some ((m.seconds - o.seconds) * 1000000000) := by
  -- With no point behind the clock there is no fraction to read.
  have hpoint : ∀ rest, o.text [':'] = '.' :: rest → False := by
    intro rest
    rw [Offset.text]
    cases o.negative <;> simp [sign]
  have hascii : 'T'.toNat < 128 := by decide
  simp only [read, Moment.text, date_text h, Option.bind_eq_bind, Option.bind_some, if_pos hascii,
    clock_text h, zone_text, atEnd, leapInstant_of_writable h]

theorem read_compactOffset_text (h : m.Writable) (o : Offset) :
    read compactOffset (m.text 'T' (o.text [])) =
      some ((m.seconds - o.seconds) * 1000000000) := by
  have hdate := date_of_plainYear (date_text h ('T' :: (m.clockText ++ o.text [])))
  have hoffset := offset_text o [] (by decide : 23 ≤ 25) fun rest => rfl
  simp only [read, Moment.text, hdate, Option.bind_eq_bind, Option.bind_some, literal_cons,
    clock_text h, hoffset, atEnd, instant_of_writable h]

theorem read_compactOffsetFraction_text (h : m.Writable) (o : Offset) :
    read compactOffsetFraction (m.text 'T' ('.' :: '0' :: o.text [])) =
      some ((m.seconds - o.seconds) * 1000000000) := by
  have hdate := date_of_plainYear
    (date_text h ('T' :: (m.clockText ++ '.' :: '0' :: o.text [])))
  have hoffset := offset_text o [] (by decide : 23 ≤ 25) fun rest => rfl
  simp only [read, Moment.text, hdate, Option.bind_eq_bind, Option.bind_some, literal_cons,
    clock_text h, fraction_zero, hoffset, atEnd, instant_of_writable h]

theorem read_spaced_text (h : m.Writable) :
    read spaced (m.text ' ' []) = some (m.seconds * 1000000000) := by
  have hdate := date_of_plainYear (date_text h (' ' :: (m.clockText ++ [])))
  simp only [read, Moment.text, hdate, Option.bind_eq_bind, Option.bind_some, literal_cons,
    clock_text h, atEnd, instant_of_writable h, Int.sub_zero]

theorem read_joined_text (h : m.Writable) :
    read joined (m.text 'T' []) = some (m.seconds * 1000000000) := by
  have hdate := date_of_plainYear (date_text h ('T' :: (m.clockText ++ [])))
  simp only [read, Moment.text, hdate, Option.bind_eq_bind, Option.bind_some, literal_cons,
    clock_text h, atEnd, instant_of_writable h, Int.sub_zero]

theorem read_dateOnly_text (h : m.midnight.Writable) :
    read dateOnly m.date.text = some (m.midnight.seconds * 1000000000) := by
  have hdate := date_of_plainYear (date_text h [])
  have hinstant := instant_of_writable h 0
  rw [List.append_nil] at hdate
  simp only [Moment.midnight, Int.sub_zero] at hdate hinstant ⊢
  simp only [read, hdate, Option.bind_some, atEnd, Option.bind_eq_bind, hinstant]

end Spelling

/-! ### Building a date -/

theorem Date.tight_text (d : Date) : Text.Tight d.text := by
  have htight := Text.tight_padded d.year.natAbs d.day 4 2 ('-' :: (padded 2 d.month ++ ['-']))
  simpa [Date.text] using htight

theorem Moment.tight_text (m : Moment) (separator : Char) : Text.Tight (m.text separator []) := by
  have htight := Text.tight_padded m.date.year.natAbs m.second 4 2
    ('-' :: (padded 2 m.date.month ++ '-' :: (padded 2 m.date.day ++ separator ::
      (padded 2 m.hour ++ ':' :: (padded 2 m.minute ++ [':'])))))
  simpa [Moment.text, Moment.clockText, Date.text] using htight

theorem Moment.tight_text_offset (m : Moment) (separator : Char) (front between : List Char)
    (o : Offset) : Text.Tight (m.text separator (front ++ o.text between)) := by
  have htight := Text.tight_padded m.date.year.natAbs o.minutes 4 2
    ('-' :: (padded 2 m.date.month ++ '-' :: (padded 2 m.date.day ++ separator ::
      (m.clockText ++ (front ++ Spelling.sign o.negative :: (padded 2 o.hours ++ between))))))
  simpa [Moment.text, Date.text, Offset.text] using htight

namespace Builder

open Spelling (read all)

theorem date_of_read {spelling : Spelling} {text : List Char} {seconds : Int}
    (htight : Text.Tight text) (h : read spelling text = some (seconds * 1000000000)) :
    Builder.date (String.ofList text) = .ok (.dateTime (1000 * seconds)) := by
  have hmillis : (seconds * 1000000000).tdiv 1000000 = 1000 * seconds := by
    rw [show seconds * 1000000000 = 1000 * seconds * 1000000 by omega]
    exact Int.mul_tdiv_cancel _ (by decide)
  have hread : Spelling.readMillis (Text.trim (String.ofList text).toList) =
      some (1000 * seconds) := by
    rw [String.toList_ofList, htight.trim_eq, Spelling.readMillis_of_read h, hmillis]
  delta Builder.date
  rw [hread]

variable {m : Moment}

theorem date_colonOffset (h : m.Writable) (o : Offset) :
    Builder.date (String.ofList (m.text 'T' (o.text [':']))) =
      .ok (.dateTime (1000 * (m.seconds - o.seconds))) :=
  date_of_read (m.tight_text_offset 'T' [] [':'] o) (Spelling.read_colonOffset_text h o)

theorem date_offset (h : m.Writable) (o : Offset) :
    ∀ ending ∈ [o.text [':'], o.text [], '.' :: '0' :: o.text []],
      Builder.date (String.ofList (m.text 'T' ending)) =
        .ok (.dateTime (1000 * (m.seconds - o.seconds))) := by
  intro ending hending
  simp only [List.mem_cons, List.not_mem_nil, or_false] at hending
  rcases hending with rfl | rfl | rfl
  · exact date_colonOffset h o
  · exact date_of_read (m.tight_text_offset 'T' [] [] o) (Spelling.read_compactOffset_text h o)
  · exact date_of_read (m.tight_text_offset 'T' ['.', '0'] [] o)
      (Spelling.read_compactOffsetFraction_text h o)

theorem date_utc (h : m.Writable) :
    Builder.date (String.ofList (m.text 'T' (Offset.zero.text [':']))) =
      .ok (.dateTime (1000 * m.seconds)) := by
  have hzero : m.seconds - Offset.zero.seconds = m.seconds := Int.sub_zero _
  rw [date_colonOffset h, hzero]

theorem date_without_offset (h : m.Writable) :
    ∀ separator ∈ ['T', ' '], Builder.date (String.ofList (m.text separator [])) =
      Builder.date (String.ofList (m.text 'T' (Offset.zero.text [':']))) := by
  intro separator hseparator
  rw [date_utc h]
  simp only [List.mem_cons, List.not_mem_nil, or_false] at hseparator
  rcases hseparator with rfl | rfl
  · exact date_of_read (m.tight_text 'T') (Spelling.read_joined_text h)
  · exact date_of_read (m.tight_text ' ') (Spelling.read_spaced_text h)

/-- All spellings of a moment give the same instant, and a text has at most one spelling. -/
theorem date_spellings_agree :
    (∀ m : Moment, m.Writable →
      (∀ days, Date.DaysBetween .epoch m.date days ↔ days = m.date.dayNumber) ∧
      (∀ o : Offset, ∀ ending ∈ [o.text [':'], o.text [], '.' :: '0' :: o.text []],
        Builder.date (String.ofList (m.text 'T' ending)) =
          .ok (.dateTime (1000 * (86400 * m.date.dayNumber +
            (3600 * m.hour + 60 * m.minute + m.second) - o.seconds)))) ∧
      (∀ separator ∈ ['T', ' '], Builder.date (String.ofList (m.text separator [])) =
        Builder.date (String.ofList (m.text 'T' (Offset.zero.text [':'])))) ∧
      Builder.date (String.ofList m.date.text) =
        Builder.date (String.ofList (m.midnight.text 'T' (Offset.zero.text [':'])))) ∧
    (∀ text s t i j, read s text = some i → read t text = some j → s = t) ∧
    ∀ order : List Spelling, order.Perm all → ∀ text,
      (order.findSome? fun s => read s text) = all.findSome? fun s => read s text := by
  refine ⟨fun m h => ⟨?_, ?_, date_without_offset h, ?_⟩, ?_, ?_⟩
  · exact Date.daysBetween_epoch_iff h.date
  · intro o ending hending
    rw [date_offset h o ending hending, Moment.seconds]
    congr 3
    omega
  · rw [date_utc h.midnight]
    exact date_of_read m.date.tight_text (Spelling.read_dateOnly_text h.midnight)
  · exact fun text s t i j => Spelling.eq_of_read
  · exact fun order horder => Spelling.findSome?_of_perm horder

/-- The end of a leap day before the epoch, on a clock that is behind. -/
theorem date_spellings_agree_leap_day :
    let m : Moment := ⟨⟨1968, 2, 29⟩, 23, 30, 0, 0⟩
    m.Writable ∧
      (∀ days, Date.DaysBetween .epoch m.date days ↔ days = -672) ∧
      (∀ text ∈ ["1968-02-29T23:30:00-01:45", "1968-02-29T23:30:00-0145",
          "1968-02-29T23:30:00.0-0145"], Builder.date text = .ok (.dateTime (-57969900000))) ∧
      (∀ text ∈ ["1968-02-29T23:30:00", "1968-02-29 23:30:00"],
        Builder.date text = Builder.date "1968-02-29T23:30:00+00:00") ∧
      Builder.date "1968-02-29" = Builder.date "1968-02-29T00:00:00+00:00" ∧
      (∀ t j, read t "1968-02-29".toList = some j → t = .dateOnly) ∧
      (all.reverse.findSome? fun s => read s "1968-02-29".toList) =
        all.findSome? fun s => read s "1968-02-29".toList := by
  intro m
  have hm : m.Writable := ⟨⟨by decide, by decide, by decide, by decide⟩, by decide, by decide,
    by decide, by decide, by decide⟩
  let o : Offset := ⟨true, 1, 45, by decide, by decide⟩
  have hcolon : m.text 'T' (o.text [':']) = "1968-02-29T23:30:00-01:45".toList := by decide
  have hcompact : m.text 'T' (o.text []) = "1968-02-29T23:30:00-0145".toList := by decide
  have hpoint : m.text 'T' ('.' :: '0' :: o.text []) = "1968-02-29T23:30:00.0-0145".toList := by
    decide
  have hjoined : m.text 'T' [] = "1968-02-29T23:30:00".toList := by decide
  have hspaced : m.text ' ' [] = "1968-02-29 23:30:00".toList := by decide
  have hutc : m.text 'T' (Offset.zero.text [':']) = "1968-02-29T23:30:00+00:00".toList := by decide
  have hday : m.date.text = "1968-02-29".toList := by decide
  have hstart : m.midnight.text 'T' (Offset.zero.text [':']) =
    "1968-02-29T00:00:00+00:00".toList := by decide
  have hmillis : 1000 * (86400 * m.date.dayNumber + (3600 * m.hour + 60 * m.minute + m.second) -
    o.seconds) = -57969900000 := by decide
  have hread : read .dateOnly "1968-02-29".toList = some (-58060800000000000) := by decide
  obtain ⟨hmoment, hunique, horder⟩ := date_spellings_agree
  obtain ⟨hdays, hoffset, hplain, hdate⟩ := hmoment m hm
  have hbehind := hoffset o
  refine ⟨hm, hdays, ?_, ?_, ?_, fun t j ht => hunique _ t .dateOnly j _ ht hread,
    horder _ (List.reverse_perm all) _⟩
  · simp only [List.forall_mem_cons, hcolon, hcompact, hpoint, String.ofList_toList,
      hmillis] at hbehind ⊢
    exact ⟨hbehind.1, hbehind.2.1, hbehind.2.2.1, by simp⟩
  · simp only [List.forall_mem_cons, hjoined, hspaced, hutc, String.ofList_toList] at hplain ⊢
    exact ⟨hplain.1, hplain.2.1, by simp⟩
  · simpa only [hday, hstart, String.ofList_toList] using hdate

end Builder

end DocQuery
