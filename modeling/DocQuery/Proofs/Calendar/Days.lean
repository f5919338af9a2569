import DocQuery.Calendar.Date
import Mathlib.Data.List.GetD
import Mathlib.Logic.Function.Iterate

/-! The number of a date counts days: the following day has the next number, and a date is
determined by its number. -/

namespace DocQuery.Date

def epoch : Date := ⟨1970, 1, 1⟩

def next (d : Date) : Date :=
  if d.day < daysInMonth d.year d.month then ⟨d.year, d.month, d.day + 1⟩
  else if d.month < 12 then ⟨d.year, d.month + 1, 1⟩
  else ⟨d.year + 1, 1, 1⟩

/-- From `a` it is `n` days to `b`, backwards when `n` is negative. -/
def DaysBetween (a b : Date) (n : Int) : Prop :=
  next^[n.toNat] a = next^[(-n).toNat] b

/-! ### Months -/

theorem daysInMonth_eq_zero (year : Int) {month : Nat} (h : 12 < month) :
    daysInMonth year month = 0 := by
  have hlength : (monthLengths year).length ≤ month - 1 := by
    simp only [monthLengths, List.length_cons, List.length_nil]
    omega
  rw [daysInMonth, if_neg (by omega), List.getD_eq_default _ _ hlength]

theorem daysInMonth_mem (year : Int) {month : Nat} (h : 1 ≤ month) (h' : month ≤ 12) :
    28 ≤ daysInMonth year month ∧ daysInMonth year month ≤ 31 := by
  have hlengths : ∀ n ∈ monthLengths year, 28 ≤ n ∧ n ≤ 31 := by
    unfold monthLengths
    split <;> decide
  have hlength : month - 1 < (monthLengths year).length := by
    simp only [monthLengths, List.length_cons, List.length_nil]
    omega
  rw [daysInMonth, if_neg (by omega), List.getD_eq_getElem _ _ hlength]
  exact hlengths _ (List.getElem_mem hlength)

theorem daysBeforeMonth_succ (year : Int) {month : Nat} (h : 1 ≤ month) :
    daysBeforeMonth year (month + 1) = daysBeforeMonth year month + daysInMonth year month := by
  obtain ⟨i, rfl⟩ := Nat.exists_eq_add_of_le' h
  rw [daysBeforeMonth, daysBeforeMonth, daysInMonth, if_neg (by omega), Nat.add_sub_cancel,
    Nat.add_sub_cancel, List.take_add_one, List.foldl_append, List.getD_eq_getElem?_getD]
  cases (monthLengths year)[i]? <;> rfl

theorem daysBeforeMonth_le (year : Int) {m n : Nat} (h : 1 ≤ m) (hmn : m ≤ n) :
    daysBeforeMonth year m ≤ daysBeforeMonth year n := by
  induction hmn with
  | refl => exact Nat.le_refl _
  | @step n hn ih =>
    rw [daysBeforeMonth_succ year (Nat.le_trans h hn)]
    omega

/-! ### Years -/

def yearLength (year : Int) : Nat :=
  if isLeapYear year then 366 else 365

theorem daysBeforeMonth_thirteen (year : Int) : daysBeforeMonth year 13 = yearLength year := by
  rw [daysBeforeMonth, monthLengths, yearLength]
  split <;> rfl

theorem daysBeforeYear_succ (year : Int) :
    daysBeforeYear (year + 1) = daysBeforeYear year + yearLength year := by
  have hleap : isLeapYear year = true ↔ year % 4 = 0 ∧ (year % 100 ≠ 0 ∨ year % 400 = 0) := by
    simp [isLeapYear]
  rw [daysBeforeYear, daysBeforeYear, yearLength]
  split
  · have := hleap.mp ‹_›
    omega
  · have := mt hleap.mpr ‹_›
    omega

theorem daysBeforeYear_le {y z : Int} (h : y ≤ z) : daysBeforeYear y ≤ daysBeforeYear z := by
  rw [daysBeforeYear, daysBeforeYear]
  omega

/-! ### Dates -/

structure Valid (d : Date) : Prop where
  month_pos : 1 ≤ d.month
  month_le : d.month ≤ 12
  day_pos : 1 ≤ d.day
  day_le : d.day ≤ daysInMonth d.year d.month

theorem isValid_iff {d : Date} : d.isValid = true ↔ d.Valid := by
  simp only [isValid, Bool.and_eq_true, decide_eq_true_eq]
  constructor
  · intro h
    refine ⟨?_, ?_, h.1, h.2⟩
    · by_contra hmonth
      have hzero : daysInMonth d.year d.month = 0 := if_pos (by omega)
      omega
    · by_contra hmonth
      have hzero := daysInMonth_eq_zero d.year (by omega : 12 < d.month)
      omega
  · exact fun h => ⟨h.day_pos, h.day_le⟩

theorem epoch_valid : epoch.Valid :=
  isValid_iff.mp rfl

theorem valid_first {year : Int} {month : Nat} (h : 1 ≤ month) (h' : month ≤ 12) :
    Valid ⟨year, month, 1⟩ := by
  have hlength := daysInMonth_mem year h h'
  exact ⟨h, h', Nat.le_refl 1, by show 1 ≤ daysInMonth year month; omega⟩

theorem Valid.next {d : Date} (h : d.Valid) : d.next.Valid := by
  obtain ⟨hmonth, hmonth', hday, hday'⟩ := h
  unfold Date.next
  split
  · exact ⟨hmonth, hmonth', by simp, by assumption⟩
  split
  · exact valid_first (by omega) (by omega)
  · exact valid_first (by omega) (by omega)

theorem dayNumber_next {d : Date} (h : d.Valid) : d.next.dayNumber = d.dayNumber + 1 := by
  obtain ⟨hmonth, hmonth', hday, hday'⟩ := h
  unfold Date.next
  split
  · simp only [dayNumber]
    omega
  have hsucc := daysBeforeMonth_succ d.year hmonth
  split
  · simp only [dayNumber, hsucc]
    omega
  · have hdecember : d.month = 12 := by omega
    have hlast : d.day = daysInMonth d.year d.month := by omega
    have hjanuary : daysBeforeMonth (d.year + 1) 1 = 0 := rfl
    have hlength := daysBeforeMonth_thirteen d.year
    rw [hdecember] at hsucc hlast
    simp only [dayNumber, daysBeforeYear_succ, hjanuary, ← hlength, hsucc, hlast, hdecember]
    omega

theorem Valid.lt_yearLength {d : Date} (h : d.Valid) :
    daysBeforeMonth d.year d.month + d.day ≤ yearLength d.year := by
  have hsucc := daysBeforeMonth_succ d.year h.month_pos
  have hmonth := h.month_le
  have hle := daysBeforeMonth_le d.year (by omega) (by omega : d.month + 1 ≤ 13)
  rw [daysBeforeMonth_thirteen] at hle
  have := h.day_le
  omega

theorem Valid.year_le {d e : Date} (hd : d.Valid) (he : e.Valid)
    (h : d.dayNumber = e.dayNumber) : d.year ≤ e.year := by
  by_contra hlt
  have hle := daysBeforeYear_le (by omega : e.year + 1 ≤ d.year)
  have hend := he.lt_yearLength
  have hday := hd.day_pos
  rw [daysBeforeYear_succ] at hle
  simp only [dayNumber] at h
  omega

theorem Valid.month_le_of_eq {year : Int} {m n i j : Nat} (hd : Valid ⟨year, m, i⟩)
    (he : Valid ⟨year, n, j⟩) (h : daysBeforeMonth year m + i = daysBeforeMonth year n + j) :
    m ≤ n := by
  by_contra hlt
  have hle := daysBeforeMonth_le year (by omega) (by omega : n + 1 ≤ m)
  have hmonth : 1 ≤ n := he.month_pos
  have hday : 1 ≤ i := hd.day_pos
  have hend : j ≤ daysInMonth year n := he.day_le
  rw [daysBeforeMonth_succ year hmonth] at hle
  omega

theorem Valid.eq_of_dayNumber {d e : Date} (hd : d.Valid) (he : e.Valid)
    (h : d.dayNumber = e.dayNumber) : d = e := by
  have hyear := Int.le_antisymm (hd.year_le he h) (he.year_le hd h.symm)
  obtain ⟨year, m, i⟩ := d
  obtain ⟨_, n, j⟩ := e
  cases hyear
  simp only [dayNumber] at h
  have hsum : daysBeforeMonth year m + i = daysBeforeMonth year n + j := by omega
  have hmonth := Nat.le_antisymm (hd.month_le_of_eq he hsum) (he.month_le_of_eq hd hsum.symm)
  cases hmonth
  rw [Nat.add_left_cancel hsum]

/-! ### Counting days -/

theorem Valid.iterate_next {d : Date} (h : d.Valid) (n : Nat) : (Date.next^[n] d).Valid := by
  induction n with
  | zero => exact h
  | succ n ih =>
    rw [Function.iterate_succ_apply']
    exact ih.next

theorem dayNumber_iterate_next {d : Date} (h : d.Valid) (n : Nat) :
    (Date.next^[n] d).dayNumber = d.dayNumber + n := by
  induction n with
  | zero => simp
  | succ n ih =>
    rw [Function.iterate_succ_apply', dayNumber_next (h.iterate_next n), ih]
    omega

theorem daysBetween_iff {a b : Date} (ha : a.Valid) (hb : b.Valid) (n : Int) :
    DaysBetween a b n ↔ n = b.dayNumber - a.dayNumber := by
  have hleft := dayNumber_iterate_next ha n.toNat
  have hright := dayNumber_iterate_next hb (-n).toNat
  constructor
  · intro h
    rw [← show _ = _ from h] at hright
    omega
  · intro h
    apply (ha.iterate_next _).eq_of_dayNumber (hb.iterate_next _)
    omega

theorem daysBetween_epoch_iff {d : Date} (h : d.Valid) (n : Int) :
    DaysBetween epoch d n ↔ n = d.dayNumber := by
  have hzero : epoch.dayNumber = 0 := rfl
  rw [daysBetween_iff epoch_valid h, hzero, Int.sub_zero]

end DocQuery.Date
