import DocQuery.Proofs.Respacing.Twin
import DocQuery.Proofs.Text.Fields
import DocQuery.Proofs.Where.Conversion

/-! The words of a comparison that is spelled in two ways. A gap that is empty in one spelling only
has to stand next to a comparator, which has blanks around it before the words are read. -/

namespace DocQuery.Twin

open Comparison (spaceComparators)
open Text (Blanks words)
open Where (isComparatorChar)

def isMark (c : Char) : Bool :=
  c == '<' || c == '>' || c == '='

def startsWith (c : Char) : List Cell → Bool
  | .char d :: _ => d == c
  | _ => false

def startsComparator : List Cell → Bool
  | .char c :: t => isMark c || (c == '!' && startsWith '=' t)
  | _ => false

def startsNone : List Cell → Bool
  | .char c :: _ => !isComparatorChar c
  | _ => false

/-- A comparator ends before the cells, or one starts with them, but not both. -/
def isLoose (previous : Char) (t : List Cell) : Bool :=
  (isMark previous && startsNone t) || (!isComparatorChar previous && startsComparator t)

/-- The two spellings of a gap do the same, given the character before it and the cells after
it. -/
def joins (previous : Option Char) (first second : Blanks) : List Cell → Bool
  | [] => true
  | .gap _ _ :: _ => false
  | .char d :: t =>
    match previous with
    | none => true
    | some c => (!first.val.isEmpty && !second.val.isEmpty) || isLoose c (.char d :: t)

/-- All gaps do the same in both spellings. -/
def fits : Option Char → List Cell → Bool
  | _, [] => true
  | _, .char c :: t => fits (some c) t
  | previous, .gap first second :: t => joins previous first second t && fits none t

variable {second? : Bool}

theorem isComparatorChar_of_isMark {c : Char} (h : isMark c = true) :
    isComparatorChar c = true := by
  simp only [isMark, Bool.or_eq_true, beq_iff_eq] at h
  rcases h with (rfl | rfl) | rfl <;> decide

theorem isComparatorChar_of_isBlank {c : Char} (h : isBlank c = true) :
    isComparatorChar c = false :=
  Where.isComparatorChar_of_class h (by decide)

theorem joins_cases {previous : Option Char} {first second : Blanks} {t : List Cell}
    (h : joins previous first second t = true) :
    t = [] ∨ previous = none ∨ (first.val ≠ [] ∧ second.val ≠ []) ∨
      ∃ c, previous = some c ∧ isLoose c t = true := by
  rcases t with _ | ⟨_ | _, t⟩
  · exact .inl rfl
  · cases previous with
    | none => exact .inr (.inl rfl)
    | some c =>
      simp only [joins, Bool.or_eq_true, Bool.and_eq_true] at h
      rcases h with h | h
      · exact .inr (.inr (.inl (by simpa using h)))
      · exact .inr (.inr (.inr ⟨c, rfl, h⟩))
  · cases h

theorem text_gap_ne_nil {first second : Blanks} (h : first.val ≠ [] ∧ second.val ≠ [])
    (second? : Bool) : (Cell.gap first second).text second? ≠ [] := by
  cases second? with
  | false => exact h.1
  | true => exact h.2

theorem startsNone_of_isLoose {c : Char} {t : List Cell} (hc : isComparatorChar c = true)
    (h : isLoose c t = true) : startsNone t = true := by
  simp only [isLoose, hc, Bool.not_true, Bool.false_and, Bool.or_false, Bool.and_eq_true] at h
  exact h.2

/-- No gap after a comparator hides whether the comparator goes on. -/
theorem head_text_of_fits {c d : Char} {t : List Cell} (hc : isComparatorChar c = true)
    (hd : isComparatorChar d = true) (h : fits (some c) t = true) :
    (∃ rest, t = .char d :: rest) ∨ ∀ second?, (text second? t).head? ≠ some d := by
  rcases t with _ | ⟨e | ⟨first, second⟩, t⟩
  · exact .inr (by simp)
  · by_cases he : e = d
    · exact .inl ⟨t, by rw [he]⟩
    · exact .inr (by simpa using he)
  · refine .inr fun second? hhead => ?_
    rw [text_gap_cons] at hhead
    cases hgap : (Cell.gap first second).text second? with
    | cons b blanks =>
      rw [hgap] at hhead
      have hb : b = d := by simpa using hhead
      have hblank : isBlank b = true := isBlank_of_mem_gap (hgap ▸ List.mem_cons_self)
      rw [hb] at hblank
      simp [isComparatorChar_of_isBlank hblank] at hd
    | nil =>
      rw [hgap, List.nil_append] at hhead
      rw [fits, Bool.and_eq_true] at h
      rcases joins_cases h.1 with rfl | hnone | hsolid | ⟨c', hc', hloose⟩
      · simp at hhead
      · cases hnone
      · exact text_gap_ne_nil hsolid second? hgap
      · cases hc'
        have hstart := startsNone_of_isLoose hc hloose
        rcases t with _ | ⟨e | _, t⟩
        · cases hstart
        · have he : e = d := by simpa using hhead
          simp [startsNone, he, hd] at hstart
        · cases hstart

/-! ### Comparators -/

theorem spaceComparators_lt {rest : List Char} (h : rest.head? ≠ some '=')
    (h' : rest.head? ≠ some '>') :
    spaceComparators ('<' :: rest) = " < ".toList ++ spaceComparators rest := by
  rw [Comparison.spaceComparators.eq_def]
  split <;> grind

theorem spaceComparators_ltEq {rest : List Char} (h : rest.head? ≠ some '>') :
    spaceComparators ('<' :: '=' :: rest) = " <= ".toList ++ spaceComparators rest := by
  rw [Comparison.spaceComparators.eq_def]
  split <;> grind

theorem spaceComparators_gt {rest : List Char} (h : rest.head? ≠ some '=') :
    spaceComparators ('>' :: rest) = " > ".toList ++ spaceComparators rest := by
  rw [Comparison.spaceComparators.eq_def]
  split <;> grind

theorem spaceComparators_bang {rest : List Char} (h : rest.head? ≠ some '=') :
    spaceComparators ('!' :: rest) = '!' :: spaceComparators rest := by
  rw [Comparison.spaceComparators.eq_def]
  split <;> grind

/-- A comparator comes out between blanks, and is followed by cells that fit after it. -/
def Spaced (c : Char) (t : List Cell) : Prop :=
  ∃ op last rest, isMark last = true ∧ fits (some last) rest = true ∧ rest.length ≤ t.length ∧
    ∀ second?, spaceComparators (text second? (.char c :: t)) =
      ' ' :: (op ++ ' ' :: spaceComparators (text second? rest))

theorem spaced_lt {t : List Cell} (h : fits (some '<') t = true) : Spaced '<' t := by
  rcases head_text_of_fits (d := '=') (by decide) (by decide) h with ⟨rest, rfl⟩ | heq
  · rw [fits] at h
    rcases head_text_of_fits (d := '>') (by decide) (by decide) h with ⟨rest, rfl⟩ | hgt
    · exact ⟨"<=>".toList, '>', rest, by decide, h, by simp; omega, fun _ => rfl⟩
    · exact ⟨"<=".toList, '=', rest, by decide, h, by simp, fun _ => spaceComparators_ltEq (hgt _)⟩
  · rcases head_text_of_fits (d := '>') (by decide) (by decide) h with ⟨rest, rfl⟩ | hgt
    · exact ⟨"<>".toList, '>', rest, by decide, h, by simp, fun _ => rfl⟩
    · exact ⟨"<".toList, '<', t, by decide, h, by simp,
        fun _ => spaceComparators_lt (heq _) (hgt _)⟩

theorem spaced_gt {t : List Cell} (h : fits (some '>') t = true) : Spaced '>' t := by
  rcases head_text_of_fits (d := '=') (by decide) (by decide) h with ⟨rest, rfl⟩ | heq
  · exact ⟨">=".toList, '=', rest, by decide, h, by simp, fun _ => rfl⟩
  · exact ⟨">".toList, '>', t, by decide, h, by simp, fun _ => spaceComparators_gt (heq _)⟩

theorem spaced_eq {t : List Cell} (h : fits (some '=') t = true) : Spaced '=' t :=
  ⟨"=".toList, '=', t, by decide, h, by simp, fun _ => rfl⟩

theorem spaced_or_kept {c : Char} {t : List Cell} (h : fits (some c) t = true) :
    Spaced c t ∨ (isMark c = false ∧
      ∀ second?, spaceComparators (text second? (.char c :: t)) =
        c :: spaceComparators (text second? t)) := by
  by_cases hc : isComparatorChar c = true
  · have hmem : c = '<' ∨ c = '>' ∨ c = '=' ∨ c = '!' := by simpa [isComparatorChar] using hc
    rcases hmem with rfl | rfl | rfl | rfl
    · exact .inl (spaced_lt h)
    · exact .inl (spaced_gt h)
    · exact .inl (spaced_eq h)
    · rcases head_text_of_fits (d := '=') (by decide) (by decide) h with ⟨rest, rfl⟩ | heq
      · exact .inl ⟨"!=".toList, '=', rest, by decide, h, by simp, fun _ => rfl⟩
      · exact .inr ⟨by decide, fun _ => spaceComparators_bang (heq _)⟩
  · refine .inr ⟨?_, fun _ => Where.spaceComparators_cons (by simpa using hc) _⟩
    rw [← Bool.not_eq_true]
    exact mt isComparatorChar_of_isMark hc

theorem head_spaceComparators {t : List Cell} (h : startsComparator t = true)
    (hfits : fits none t = true) (second? : Bool) :
    (spaceComparators (text second? t)).head? = some ' ' := by
  rcases t with _ | ⟨c | _, t⟩
  · cases h
  · rw [fits] at hfits
    rcases spaced_or_kept hfits with ⟨op, last, rest, -, -, -, hspaced⟩ | ⟨hmark, hkept⟩
    · rw [hspaced]
      rfl
    · simp only [startsComparator, hmark, Bool.false_or, Bool.and_eq_true, beq_iff_eq] at h
      obtain ⟨rfl, hstart⟩ := h
      rcases t with _ | ⟨d | _, t⟩
      · cases hstart
      · rw [eq_of_beq hstart]
        rfl
      · cases hstart
  · cases h

/-- What has been spaced before some cells: nothing at the start, and after a comparator a text that
ends with a blank. -/
structure Precedes (previous : Option Char) (front : List Char) : Prop where
  start : previous = none → front = []
  mark : ∀ c ∈ previous, isMark c = true → ∀ d ∈ front.getLast?, isBlank d = true

theorem precedes_nil : Precedes none [] :=
  ⟨fun _ => rfl, by simp⟩

theorem words_gap {previous : Option Char} {front : List Char} (hfront : Precedes previous front)
    {first second : Blanks} {t : List Cell}
    (h : fits previous (.gap first second :: t) = true) (second? : Bool) :
    words (front ++ spaceComparators (text second? (.gap first second :: t))) =
      words front ++ words (spaceComparators (text second? t)) := by
  rw [fits, Bool.and_eq_true] at h
  have hblank : ∀ c ∈ (Cell.gap first second).text second?, isBlank c = true :=
    fun _ => isBlank_of_mem_gap
  rw [text_gap_cons, Where.spaceComparators_append fun c hc =>
    isComparatorChar_of_isBlank (hblank c hc)]
  apply Text.words_append_blanks hblank
  rcases joins_cases h.1 with rfl | hnone | hsolid | ⟨c, hc, hloose⟩
  · have hnil : spaceComparators (text second? []) = [] := rfl
    exact .inr (.inr (by rw [hnil]; simp))
  · exact .inr (.inl (by simp [hfront.start hnone]))
  · exact .inl (text_gap_ne_nil hsolid second?)
  · rw [isLoose, Bool.or_eq_true, Bool.and_eq_true, Bool.and_eq_true] at hloose
    rcases hloose with ⟨hmark, -⟩ | ⟨-, hstart⟩
    · exact .inr (.inl (hfront.mark c hc hmark))
    · refine .inr (.inr fun d hd => ?_)
      rw [head_spaceComparators hstart h.2] at hd
      cases hd
      decide

theorem words_text_append (n : Nat) {t : List Cell} (hn : t.length ≤ n) {previous : Option Char}
    (h : fits previous t = true) {front : List Char} (hfront : Precedes previous front) :
    words (front ++ spaceComparators (text true t)) =
      words (front ++ spaceComparators (text false t)) := by
  induction n generalizing t previous front with
  | zero =>
    obtain rfl := List.length_eq_zero_iff.mp (Nat.le_zero.mp hn)
    rfl
  | succ n ih =>
    rcases t with _ | ⟨c | ⟨first, second⟩, t⟩
    · rfl
    · rw [fits] at h
      rw [List.length_cons] at hn
      rcases spaced_or_kept h with ⟨op, last, rest, hlast, hrest, hlen, hspaced⟩ | ⟨hmark, hkept⟩
      · have hnext : Precedes (some last) ((front ++ ' ' :: op) ++ [' ']) := by
          refine ⟨by simp, fun _ _ _ d hd => ?_⟩
          rw [List.getLast?_concat] at hd
          cases hd
          decide
        have hih := ih (by omega) hrest hnext
        rw [hspaced, hspaced]
        simpa using hih
      · have hnext : Precedes (some c) (front ++ [c]) := by
          refine ⟨by simp, fun d hd hd' => ?_⟩
          cases hd
          rw [hmark] at hd'
          cases hd'
        have hih := ih (by omega) h hnext
        rw [hkept, hkept]
        simpa using hih
    · have hrest : fits none t = true := by
        rw [fits, Bool.and_eq_true] at h
        exact h.2
      have hih := ih (by simpa using hn) hrest precedes_nil
      rw [words_gap hfront h, words_gap hfront h]
      exact congrArg _ hih

/-- The two spellings have the same words. -/
theorem words_spaceComparators {t : List Cell} (h : fits none t = true) (second? : Bool) :
    words (spaceComparators (text second? t)) = words (spaceComparators (text false t)) := by
  cases second? with
  | false => rfl
  | true => exact words_text_append _ (Nat.le_refl _) h precedes_nil

end DocQuery.Twin
