import DocQuery.Text.Basic
import Mathlib.Tactic.ByContra

/-! Trimming a text with blanks around it. -/

namespace DocQuery.Text

/-- What holds of the characters of a text is decided along the text, not by trying every
character. -/
instance decidableForallMem (p : Char → Prop) [DecidablePred p] (text : List Char) :
    Decidable (∀ c ∈ text, p c) :=
  List.decidableBAll p text

abbrev Blanks := {text : List Char // ∀ c ∈ text, isBlank c = true}

def Blanks.none : Blanks :=
  ⟨[], by simp⟩

/-- The text neither starts nor ends with a blank. -/
structure Tight (text : List Char) : Prop where
  head : ∀ c ∈ text.head?, isBlank c = false
  last : ∀ c ∈ text.getLast?, isBlank c = false

theorem tight_of_not_blank {text : List Char} (h : ∀ c ∈ text, isBlank c = false) : Tight text :=
  ⟨fun c hc => h c (List.mem_of_head? hc), fun c hc => h c (List.mem_of_getLast? hc)⟩

theorem trimStart_append {blanks : List Char} (h : ∀ c ∈ blanks, isBlank c = true)
    (text : List Char) : trimStart (blanks ++ text) = trimStart text :=
  List.dropWhile_append_of_pos h

theorem trimStart_of_head {text : List Char} (h : ∀ c ∈ text.head?, isBlank c = false) :
    trimStart text = text := by
  cases text with
  | nil => rfl
  | cons c text => simp [trimStart, h c rfl]

theorem trimEnd_append {blanks : List Char} (h : ∀ c ∈ blanks, isBlank c = true)
    (text : List Char) : trimEnd (text ++ blanks) = trimEnd text := by
  have hrev : ∀ c ∈ blanks.reverse, isBlank c = true := by simpa using h
  simp only [trimEnd, List.reverse_append]
  rw [List.dropWhile_append_of_pos hrev]

theorem trimEnd_of_last {text : List Char} (h : ∀ c ∈ text.getLast?, isBlank c = false) :
    trimEnd text = text := by
  have hhead : trimStart text.reverse = text.reverse :=
    trimStart_of_head (by simpa using h)
  simp only [trimStart] at hhead
  simp [trimEnd, hhead]

theorem Tight.trim_eq {text : List Char} (h : Tight text) : trim text = text := by
  rw [trim, trimStart_of_head h.head, trimEnd_of_last h.last]

theorem Tight.trim_append {text : List Char} (h : Tight text) {opening closing : List Char}
    (ho : ∀ c ∈ opening, isBlank c = true) (hc : ∀ c ∈ closing, isBlank c = true) :
    trim (opening ++ text ++ closing) = text := by
  cases text with
  | nil =>
    have hend : trimStart (closing ++ []) = [] := trimStart_append hc []
    rw [List.append_nil] at hend
    rw [List.append_nil, trim, trimStart_append ho, hend]
    rfl
  | cons c text =>
    have hhead : ∀ d ∈ ((c :: text) ++ closing).head?, isBlank d = false := by
      simpa using h.head
    rw [List.append_assoc, trim, trimStart_append ho, trimStart_of_head hhead,
      trimEnd_append hc, trimEnd_of_last h.last]

theorem tight_of_trim_eq {text : List Char} (h : trim text = text) : Tight text := by
  have hhead : ∀ c ∈ text.head?, isBlank c = false := by
    intro c hc
    obtain ⟨rest, rfl⟩ : ∃ rest, text = c :: rest := List.head?_eq_some_iff.mp hc
    by_contra hb
    rw [Bool.not_eq_false] at hb
    have hdrop : trimStart (c :: rest) = trimStart rest := by simp [trimStart, hb]
    have hlen := length_trim_le rest
    rw [trim, ← hdrop, ← trim, h, List.length_cons] at hlen
    omega
  refine ⟨hhead, ?_⟩
  intro c hc
  obtain ⟨rest, rfl⟩ : ∃ rest, text = rest ++ [c] := List.getLast?_eq_some_iff.mp hc
  by_contra hb
  have hdrop : trimEnd (rest ++ [c]) = trimEnd rest := trimEnd_append (by simpa using hb) rest
  have hlen := length_trimEnd_le rest
  rw [trim, trimStart_of_head hhead] at h
  rw [← hdrop, h, List.length_append, List.length_singleton] at hlen
  omega

theorem exists_trimEnd (text : List Char) : ∃ closing : Blanks, text = trimEnd text ++ closing.val := by
  refine ⟨⟨(text.reverse.takeWhile isBlank).reverse, fun c hc => ?_⟩, ?_⟩
  · exact List.all_eq_true.mp List.all_takeWhile c (List.mem_reverse.mp hc)
  · rw [trimEnd, ← List.reverse_append, List.takeWhile_append_dropWhile, List.reverse_reverse]

theorem exists_trim (text : List Char) :
    ∃ opening closing : Blanks, text = opening.val ++ trim text ++ closing.val := by
  obtain ⟨closing, hclosing⟩ := exists_trimEnd (trimStart text)
  refine ⟨⟨text.takeWhile isBlank, List.all_eq_true.mp List.all_takeWhile⟩, closing, ?_⟩
  rw [List.append_assoc, trim, ← hclosing]
  exact List.takeWhile_append_dropWhile.symm

theorem tight_trim (text : List Char) : Tight (trim text) := by
  have hstart : ∀ c ∈ (trimStart text).head?, isBlank c = false := by
    intro c hc
    have hnot := List.head?_dropWhile_not isBlank text
    rw [trimStart, Option.mem_def] at hc
    rwa [hc] at hnot
  refine ⟨fun c hc => ?_, fun c hc => ?_⟩
  · obtain ⟨closing, hclosing⟩ := exists_trimEnd (trimStart text)
    apply hstart
    rw [trim, Option.mem_def] at hc
    rw [hclosing, Option.mem_def, List.head?_append, hc]
    rfl
  · have hnot := List.head?_dropWhile_not isBlank (trimStart text).reverse
    rw [trim, trimEnd, List.getLast?_reverse, Option.mem_def] at hc
    rwa [hc] at hnot

/-! ### Dropping all blanks -/

theorem dropBlanks_append (s t : List Char) : dropBlanks (s ++ t) = dropBlanks s ++ dropBlanks t :=
  List.filter_append s t

theorem dropBlanks_blanks (blanks : Blanks) : dropBlanks blanks.val = [] := by
  simpa [dropBlanks] using blanks.property

theorem dropBlanks_of_solid {text : List Char} (h : ∀ c ∈ text, isBlank c = false) :
    dropBlanks text = text := by
  simpa [dropBlanks] using h

theorem dropBlanks_trim (text : List Char) : dropBlanks (trim text) = dropBlanks text := by
  obtain ⟨opening, closing, htext⟩ := exists_trim text
  have hdrop := congrArg dropBlanks htext
  rw [dropBlanks_append, dropBlanks_append, dropBlanks_blanks, dropBlanks_blanks] at hdrop
  simpa using hdrop.symm

end DocQuery.Text
