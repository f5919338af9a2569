import DocQuery.Token.Lexeme

/-! Character classes that have no character in common. -/

namespace DocQuery

theorem inRanges_cons {lo hi : Nat} {ranges : List (Nat × Nat)} {c : Char} :
    inRanges ((lo, hi) :: ranges) c = true ↔
      (lo ≤ c.toNat ∧ c.toNat ≤ hi) ∨ inRanges ranges c = true := by
  simp [inRanges]

theorem isAscending_tail {range : Nat × Nat} {ranges : List (Nat × Nat)}
    (h : isAscending (range :: ranges) = true) : isAscending ranges = true := by
  cases ranges with
  | nil => rfl
  | cons next ranges =>
    simp only [isAscending, Bool.and_eq_true] at h
    exact h.2

theorem lt_of_inRanges_tail {lo hi : Nat} {ranges : List (Nat × Nat)} {c : Char}
    (h : isAscending ((lo, hi) :: ranges) = true) (hc : inRanges ranges c = true) :
    lo ≤ hi ∧ hi < c.toNat := by
  induction ranges generalizing lo hi with
  | nil => cases hc
  | cons next ranges ih =>
    obtain ⟨lo', hi'⟩ := next
    have htail := isAscending_tail h
    simp only [isAscending, Bool.and_eq_true, decide_eq_true_eq] at h
    rcases inRanges_cons.mp hc with hc | hc
    · omega
    · have := ih htail hc
      omega

/-- No code point lies in both lists of ranges, which ascend. -/
def areDisjoint : List (Nat × Nat) → List (Nat × Nat) → Bool
  | [], _ => true
  | (lo, hi) :: ranges, others =>
    let above := others.dropWhile (·.2 < lo)
    above.head?.all (hi < ·.1) && areDisjoint ranges above

theorem isAscending_dropWhile {ranges : List (Nat × Nat)} (h : isAscending ranges = true)
    (p : Nat × Nat → Bool) : isAscending (ranges.dropWhile p) = true := by
  induction ranges with
  | nil => rfl
  | cons range ranges ih =>
    rw [List.dropWhile_cons]
    split
    · exact ih (isAscending_tail h)
    · exact h

theorem inRanges_dropWhile {lo : Nat} {c : Char} (h : lo ≤ c.toNat) (ranges : List (Nat × Nat)) :
    inRanges (ranges.dropWhile (·.2 < lo)) c = inRanges ranges c := by
  induction ranges with
  | nil => rfl
  | cons range ranges ih =>
    obtain ⟨lo', hi'⟩ := range
    rw [List.dropWhile_cons]
    split
    · rename_i hlt
      have hlt' : hi' < lo := by simpa using hlt
      rw [ih, Bool.eq_iff_iff, inRanges_cons]
      exact ⟨.inr, fun hc => hc.resolve_left (by omega)⟩
    · rfl

theorem not_inRanges_of_areDisjoint {ranges others : List (Nat × Nat)} {c : Char}
    (hr : isAscending ranges = true) (ho : isAscending others = true)
    (h : areDisjoint ranges others = true) (hc : inRanges ranges c = true) :
    inRanges others c = false := by
  induction ranges generalizing others with
  | nil => cases hc
  | cons range ranges ih =>
    obtain ⟨lo, hi⟩ := range
    obtain ⟨hhead, htail⟩ := Bool.and_eq_true_iff.mp h
    have ho' := isAscending_dropWhile ho (·.2 < lo)
    rcases inRanges_cons.mp hc with hc | hc
    · rw [← inRanges_dropWhile hc.1]
      cases habove : others.dropWhile (·.2 < lo) with
      | nil => rfl
      | cons next above =>
        obtain ⟨lo', hi'⟩ := next
        rw [habove] at hhead ho'
        have hlt : hi < lo' := by simpa using hhead
        rw [← Bool.not_eq_true, inRanges_cons]
        rintro (hc' | hc')
        · omega
        · have := lt_of_inRanges_tail ho' hc'
          omega
    · have hlt := lt_of_inRanges_tail hr hc
      rw [← inRanges_dropWhile (by omega : lo ≤ c.toNat)]
      exact ih (isAscending_tail hr) ho' htail hc

theorem notMem_of_class {p : Char → Bool} {c : Char} {list : List Char} (hc : p c = true)
    (hp : list.any p = false) : c ∉ list := by
  intro hmem
  have hany := List.any_eq_true.mpr ⟨c, hmem, hc⟩
  rw [hp] at hany
  cases hany

/-! ### Letters, numerals, digits and blanks -/

theorem areDisjoint_classes : areDisjoint letterRanges blankRanges = true ∧
    areDisjoint numeralRanges blankRanges = true ∧
    areDisjoint letterRanges digitRanges = true := by
  decide +kernel

theorem of_ascii {p : Char → Bool} (h : (List.range 128).all (fun n => p (Char.ofNat n)) = true)
    {c : Char} (hc : c.toNat < 128) : p c = true := by
  have hp := List.all_eq_true.mp h c.toNat (List.mem_range.mpr hc)
  rwa [Char.ofNat_toNat] at hp

theorem ascii_classes {c : Char} (hc : c.toNat < 128) :
    (c.isAlpha = true → isBlank c = false ∧ c.isDigit = false) ∧
      (c.isDigit = true → isBlank c = false) ∧
      (isLetter c.toUpper = true → isLetter c = true) ∧
      (isLetter c.toLower = true → isLetter c = true) :=
  of_decide_eq_true (of_ascii (p := fun c => decide
    ((c.isAlpha = true → isBlank c = false ∧ c.isDigit = false) ∧
      (c.isDigit = true → isBlank c = false) ∧
      (isLetter c.toUpper = true → isLetter c = true) ∧
      (isLetter c.toLower = true → isLetter c = true))) (by decide +kernel) hc)

theorem isBlank_of_isLetter {c : Char} (h : isLetter c = true) : isBlank c = false := by
  unfold isLetter at h
  split at h
  · rename_i hc
    exact ((ascii_classes hc).1 h).1
  · exact not_inRanges_of_areDisjoint isAscending_letterRanges isAscending_blankRanges
      areDisjoint_classes.1 h

theorem isBlank_of_isNumeral {c : Char} (h : isNumeral c = true) : isBlank c = false := by
  unfold isNumeral at h
  split at h
  · rename_i hc
    exact (ascii_classes hc).2.1 h
  · exact not_inRanges_of_areDisjoint isAscending_numeralRanges isAscending_blankRanges
      areDisjoint_classes.2.1 h

theorem isAnyDigit_of_isLetter {c : Char} (h : isLetter c = true) : isAnyDigit c = false := by
  unfold isLetter at h
  unfold isAnyDigit
  split at h
  · rename_i hc
    rw [if_pos hc]
    exact ((ascii_classes hc).1 h).2
  · rename_i hc
    rw [if_neg hc]
    exact not_inRanges_of_areDisjoint isAscending_letterRanges isAscending_digitRanges
      areDisjoint_classes.2.2 h

theorem isLetter_of_toUpper {c : Char} (h : isLetter c.toUpper = true) : isLetter c = true := by
  by_cases hc : c.toNat < 128
  · exact (ascii_classes hc).2.2.1 h
  · have hrange : ¬(c.val ≥ 'a'.val ∧ c.val ≤ 'z'.val) := by
      rintro ⟨_, hz⟩
      have hz' : c.toNat ≤ 122 := hz
      omega
    have hupper : c.toUpper = c := dif_neg hrange
    rwa [hupper] at h

theorem isLetter_of_toLower {c : Char} (h : isLetter c.toLower = true) : isLetter c = true := by
  by_cases hc : c.toNat < 128
  · exact (ascii_classes hc).2.2.2 h
  · have hrange : ¬(c.val ≥ 'A'.val ∧ c.val ≤ 'Z'.val) := by
      rintro ⟨_, hz⟩
      have hz' : c.toNat ≤ 90 := hz
      omega
    have hlower : c.toLower = c := dif_neg hrange
    rwa [hlower] at h

theorem toNat_lt_of_isDigit {c : Char} (h : c.isDigit = true) : c.toNat < 128 := by
  simp only [Char.isDigit, Bool.and_eq_true, decide_eq_true_eq, UInt32.le_iff_toNat_le] at h
  have h' : c.toNat ≤ 57 := h.2
  omega

theorem isAnyDigit_of_isDigit {c : Char} (h : c.isDigit = true) : isAnyDigit c = true := by
  rw [isAnyDigit, if_pos (toNat_lt_of_isDigit h), h]

theorem isNumeral_of_isDigit {c : Char} (h : c.isDigit = true) : isNumeral c = true := by
  rw [isNumeral, if_pos (toNat_lt_of_isDigit h), h]

theorem isBlank_of_isDigit {c : Char} (h : c.isDigit = true) : isBlank c = false :=
  isBlank_of_isNumeral (isNumeral_of_isDigit h)

namespace Lexeme

theorem isBlank_of_isNameStart {c : Char} (h : isNameStart c = true) : isBlank c = false := by
  simp only [isNameStart, Bool.or_eq_true, beq_iff_eq] at h
  rcases h with (h | rfl) | rfl
  · exact isBlank_of_isLetter h
  · decide
  · decide

theorem isBlank_of_isNameChar {c : Char} (h : isNameChar c = true) : isBlank c = false := by
  simp only [isNameChar, Bool.or_eq_true, beq_iff_eq] at h
  rcases h with ((h | h) | rfl) | rfl
  · exact isBlank_of_isLetter h
  · exact isBlank_of_isNumeral h
  · decide
  · decide

theorem isNameChar_of_isDigit {c : Char} (h : c.isDigit = true) : isNameChar c = true := by
  simp [isNameChar, isNumeral_of_isDigit h]

theorem isAnyDigit_of_isNameStart {c : Char} (h : isNameStart c = true) : isAnyDigit c = false := by
  simp only [isNameStart, Bool.or_eq_true, beq_iff_eq] at h
  rcases h with (h | rfl) | rfl
  · exact isAnyDigit_of_isLetter h
  · decide
  · decide

theorem isDigit_of_isNameStart {c : Char} (h : isNameStart c = true) : c.isDigit = false := by
  rw [← Bool.not_eq_true]
  intro hd
  have := isAnyDigit_of_isDigit hd
  rw [isAnyDigit_of_isNameStart h] at this
  cases this

end Lexeme

end DocQuery
