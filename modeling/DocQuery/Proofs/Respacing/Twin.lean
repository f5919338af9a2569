import DocQuery.Proofs.Text.Trim
import Mathlib.Data.List.DropRight

/-! A text in two spellings that differ in some of the blanks between characters. What trimming
takes from it does not depend on the spelling. -/

namespace DocQuery.Twin

open Text (Blanks)

/-- A character, or a gap with its blanks in both spellings. -/
inductive Cell where
  | char (c : Char)
  | gap (first second : Blanks)

def Cell.text (second? : Bool) : Cell → List Char
  | char c => [c]
  | gap first second => if second? then second.val else first.val

def Cell.isBlank : Cell → Bool
  | char c => DocQuery.isBlank c
  | gap _ _ => true

def text (second? : Bool) (t : List Cell) : List Char :=
  t.flatMap (Cell.text second?)

variable {second? : Bool}

@[simp] theorem text_nil : text second? [] = [] :=
  rfl

@[simp] theorem text_char_cons (c : Char) (t : List Cell) :
    text second? (.char c :: t) = c :: text second? t :=
  rfl

theorem text_gap_cons (first second : Blanks) (t : List Cell) :
    text second? (.gap first second :: t) =
      (Cell.gap first second).text second? ++ text second? t :=
  rfl

@[simp] theorem text_append (s t : List Cell) :
    text second? (s ++ t) = text second? s ++ text second? t :=
  List.flatMap_append

theorem text_map_char (cs : List Char) : text second? (cs.map .char) = cs := by
  induction cs with
  | nil => rfl
  | cons c cs ih => rw [List.map_cons, text_char_cons, ih]

theorem isBlank_of_mem_gap {first second : Blanks} {c : Char}
    (h : c ∈ (Cell.gap first second).text second?) : isBlank c = true := by
  cases second? with
  | false => exact first.property c h
  | true => exact second.property c h

theorem isBlank_of_mem_text {t : List Cell} (h : ∀ cell ∈ t, cell.isBlank = true) :
    ∀ c ∈ text second? t, isBlank c = true := by
  intro c hc
  obtain ⟨cell, hcell, hmem⟩ := List.mem_flatMap.mp hc
  cases cell with
  | char d =>
    rw [List.mem_singleton.mp hmem]
    exact h _ hcell
  | gap first second => exact isBlank_of_mem_gap hmem

/-! ### Trimming -/

/-- The first and the last cell are characters that are not blank. -/
structure Tight (t : List Cell) : Prop where
  head : ∀ cell ∈ t.head?, cell.isBlank = false
  last : ∀ cell ∈ t.getLast?, cell.isBlank = false

theorem Cell.exists_char {cell : Cell} (h : cell.isBlank = false) :
    ∃ c, cell = .char c ∧ DocQuery.isBlank c = false := by
  cases cell with
  | char c => exact ⟨c, rfl, h⟩
  | gap first second => cases h

theorem Tight.cases_head {t : List Cell} (h : Tight t) :
    t = [] ∨ ∃ c rest, t = .char c :: rest ∧ isBlank c = false := by
  cases t with
  | nil => exact .inl rfl
  | cons cell rest =>
    obtain ⟨c, rfl, hc⟩ := Cell.exists_char (h.head cell rfl)
    exact .inr ⟨c, rest, rfl, hc⟩

theorem Tight.cases_last {t : List Cell} (h : Tight t) :
    t = [] ∨ ∃ front c, t = front ++ [Cell.char c] ∧ isBlank c = false := by
  cases hl : t.getLast? with
  | none => exact .inl (List.getLast?_eq_none_iff.mp hl)
  | some cell =>
    obtain ⟨front, rfl⟩ := List.getLast?_eq_some_iff.mp hl
    obtain ⟨c, rfl, hc⟩ := Cell.exists_char (h.last cell hl)
    exact .inr ⟨front, c, rfl, hc⟩

theorem Tight.text {t : List Cell} (h : Tight t) : Text.Tight (text second? t) := by
  constructor
  · rcases h.cases_head with rfl | ⟨c, rest, rfl, hc⟩
    · simp
    · simpa using hc
  · rcases h.cases_last with rfl | ⟨front, c, rfl, hc⟩
    · simp
    · simpa using hc

def trimEnd (t : List Cell) : List Cell :=
  t.rdropWhile Cell.isBlank

def trim (t : List Cell) : List Cell :=
  trimEnd (t.dropWhile Cell.isBlank)

theorem exists_trimEnd (t : List Cell) :
    ∃ back, t = trimEnd t ++ back ∧ ∀ cell ∈ back, cell.isBlank = true :=
  ⟨t.rtakeWhile Cell.isBlank, List.rdropWhile_append_rtakeWhile.symm,
    fun _ => List.mem_rtakeWhile_imp⟩

theorem last_trimEnd (t : List Cell) : ∀ cell ∈ (trimEnd t).getLast?, cell.isBlank = false := by
  intro cell hcell
  have hdrop := List.head?_dropWhile_not Cell.isBlank t.reverse
  rw [trimEnd, List.rdropWhile, List.getLast?_reverse] at hcell
  rw [hcell] at hdrop
  simpa using hdrop

theorem exists_trim (t : List Cell) : ∃ front back, t = front ++ trim t ++ back ∧
    (∀ cell ∈ front, cell.isBlank = true) ∧ ∀ cell ∈ back, cell.isBlank = true := by
  obtain ⟨back, hback, hblank⟩ := exists_trimEnd (t.dropWhile Cell.isBlank)
  refine ⟨t.takeWhile Cell.isBlank, back, ?_, fun cell => List.mem_takeWhile_imp, hblank⟩
  rw [trim, List.append_assoc, ← hback, List.takeWhile_append_dropWhile]

theorem head_trimEnd {t : List Cell} (h : ∀ cell ∈ t.head?, cell.isBlank = false) :
    ∀ cell ∈ (trimEnd t).head?, cell.isBlank = false := by
  intro cell hcell
  obtain ⟨back, hback, -⟩ := exists_trimEnd t
  apply h
  rw [hback]
  exact List.mem_head?_append_of_mem_head? hcell

theorem tight_trimEnd {t : List Cell} (h : ∀ cell ∈ t.head?, cell.isBlank = false) :
    Tight (trimEnd t) :=
  ⟨head_trimEnd h, last_trimEnd t⟩

theorem tight_trim (t : List Cell) : Tight (trim t) := by
  apply tight_trimEnd
  intro cell hcell
  have hdrop := List.head?_dropWhile_not Cell.isBlank t
  rw [hcell] at hdrop
  simpa using hdrop

theorem length_trim_le (t : List Cell) : (trim t).length ≤ t.length := by
  obtain ⟨front, back, ht, -⟩ := exists_trim t
  have hlen := congrArg List.length ht
  simp only [List.length_append] at hlen
  omega

theorem trim_text (t : List Cell) : Text.trim (text second? t) = text second? (trim t) := by
  obtain ⟨front, back, ht, hfront, hback⟩ := exists_trim t
  have htext : text second? t =
      text second? front ++ text second? (trim t) ++ text second? back := by
    rw [← text_append, ← text_append, ← ht]
  rw [htext]
  exact (tight_trim t).text.trim_append (isBlank_of_mem_text hfront) (isBlank_of_mem_text hback)

theorem trimEnd_text {t : List Cell} (h : ∀ cell ∈ t.head?, cell.isBlank = false) :
    Text.trimEnd (text second? t) = text second? (trimEnd t) := by
  obtain ⟨back, ht, hback⟩ := exists_trimEnd t
  have htext : text second? t = text second? (trimEnd t) ++ text second? back := by
    rw [← text_append, ← ht]
  rw [htext, Text.trimEnd_append (isBlank_of_mem_text hback)]
  exact Text.trimEnd_of_last (tight_trimEnd h).text.last

def stripClose (t : List Cell) : List Cell :=
  match t.getLast? with
  | some (.char ')') => t.dropLast
  | _ => t

theorem stripClose_concat (front : List Cell) (c : Char) :
    stripClose (front ++ [Cell.char c]) = if c = ')' then front else front ++ [Cell.char c] := by
  by_cases h : c = ')'
  · simp [stripClose, h]
  · simp only [stripClose, List.getLast?_concat, h, if_false]
    split
    · rename_i heq
      simp at heq
      exact absurd heq h
    · rfl

theorem stripLast_text {t : List Cell} (h : Tight t) :
    Text.stripLast ')' (text second? t) = text second? (stripClose t) := by
  rcases h.cases_last with rfl | ⟨front, c, rfl, -⟩
  · rfl
  · rw [stripClose_concat]
    by_cases hc : c = ')' <;> simp [Text.stripLast, Text.stripFirst, hc]

theorem head_stripClose {t : List Cell} (h : Tight t) :
    ∀ cell ∈ (stripClose t).head?, cell.isBlank = false := by
  rcases h.cases_last with rfl | ⟨front, c, rfl, -⟩
  · simp [stripClose]
  · intro cell hcell
    apply h.head
    rw [stripClose_concat] at hcell
    split at hcell
    · exact List.mem_head?_append_of_mem_head? hcell
    · exact hcell

end DocQuery.Twin
