import DocQuery.Proofs.Condition.Brackets
import DocQuery.Proofs.Condition.Mask
import DocQuery.Proofs.Respacing.Twin

/-! Masking a comparison that is spelled in two ways. Where a quoted text never stands across a gap,
its occurrences are the same in both spellings, and so are the placeholders that replace them. -/

namespace DocQuery.Twin

open Text (replaceFrom)

def block : List Cell → List Char
  | .char c :: t => c :: block t
  | _ => []

/-- Where `part` occurs in one of the spellings, it does not stand across a gap. -/
def isClear (part : List Char) : List Cell → Bool
  | [] => true
  | .gap _ _ :: t => isClear part t
  | .char c :: t =>
    (part.isPrefixOf (c :: block t)
      || !(part.isPrefixOf (c :: text false t) || part.isPrefixOf (c :: text true t)))
    && isClear part t

theorem block_prefix_text (second? : Bool) (t : List Cell) : block t <+: text second? t := by
  induction t with
  | nil => exact List.prefix_rfl
  | cons cell t ih =>
    cases cell with
    | char c => exact (List.prefix_cons_inj c).mpr ih
    | gap first second => exact List.nil_prefix

theorem isClear_char {part : List Char} {c : Char} {t : List Cell} :
    isClear part (.char c :: t) = true ↔
      (∀ second?, part <+: c :: text second? t → part <+: c :: block t) ∧
        isClear part t = true := by
  simp only [isClear, Bool.and_eq_true, Bool.or_eq_true, Bool.not_eq_true',
    ← Bool.not_eq_true, List.isPrefixOf_iff_prefix, Bool.forall_bool]
  tauto

/-- A text that starts with a quote. -/
structure Framed (part : List Char) : Prop where
  ne_nil : part ≠ []
  head : ∀ c ∈ part.head?, Literal.isQuote c = true

theorem framed_of_mem_candidates {names : List String} {part : List Char}
    (h : part ∈ Mask.candidates names) : Framed part := by
  obtain ⟨name, -, -, q, hq, rfl⟩ := Mask.eq_of_mem_candidates h
  exact ⟨by simp, by simpa using hq⟩

theorem isBlank_of_isQuote {c : Char} (h : Literal.isQuote c = true) : isBlank c = false := by
  rw [← Bool.not_eq_true]
  intro hb
  simpa [Condition.isDelimiter, h] using Condition.isDelimiter_of_isBlank hb

theorem Framed.not_prefix {part : List Char} (hpart : Framed part) {c : Char}
    (hc : Literal.isQuote c = false) (text : List Char) : ¬ part <+: c :: text := by
  intro hprefix
  rcases List.prefix_cons_iff.mp hprefix with hnil | ⟨rest, rfl, -⟩
  · exact hpart.ne_nil hnil
  · simp [hpart.head c rfl] at hc

theorem isQuote_of_isBlank {c : Char} (h : isBlank c = true) : Literal.isQuote c = false := by
  rw [← Bool.not_eq_true]
  intro hq
  simp [isBlank_of_isQuote hq] at h

theorem Framed.replaceFrom_blanks {part : List Char} (hpart : Framed part) {blanks : List Char}
    (h : ∀ c ∈ blanks, isBlank c = true) (new text : List Char) :
    replaceFrom part new 0 (blanks ++ text) = blanks ++ replaceFrom part new 0 text := by
  induction blanks with
  | nil => rfl
  | cons c blanks ih =>
    have hc := isQuote_of_isBlank (h c List.mem_cons_self)
    rw [List.cons_append, Text.replaceFrom_cons new (hpart.not_prefix hc _),
      ih fun d hd => h d (List.mem_cons_of_mem c hd), List.cons_append]

theorem Framed.contains_blanks {part : List Char} (hpart : Framed part) {blanks : List Char}
    (h : ∀ c ∈ blanks, isBlank c = true) (text : List Char) :
    Text.contains part (blanks ++ text) = Text.contains part text := by
  induction blanks with
  | nil => rfl
  | cons c blanks ih =>
    have hc := hpart.not_prefix (isQuote_of_isBlank (h c List.mem_cons_self)) (blanks ++ text)
    rw [← List.isPrefixOf_iff_prefix, Bool.not_eq_true] at hc
    rw [List.cons_append, Text.contains, hc, Bool.false_or]
    exact ih fun d hd => h d (List.mem_cons_of_mem c hd)

theorem Framed.contains_text {part : List Char} (hpart : Framed part) {t : List Cell}
    (h : isClear part t = true) (second? : Bool) :
    Text.contains part (text second? t) = Text.contains part (text false t) := by
  induction t with
  | nil => rfl
  | cons cell t ih =>
    cases cell with
    | gap first second =>
      rw [text_gap_cons, text_gap_cons, hpart.contains_blanks fun _ => isBlank_of_mem_gap,
        hpart.contains_blanks fun _ => isBlank_of_mem_gap, ih h]
    | char c =>
      obtain ⟨hblock, hrest⟩ := isClear_char.mp h
      have hprefix : ∀ second?,
          part.isPrefixOf (c :: text second? t) = part.isPrefixOf (c :: block t) := by
        intro second?
        rw [Bool.eq_iff_iff, List.isPrefixOf_iff_prefix, List.isPrefixOf_iff_prefix]
        refine ⟨hblock second?, fun hp => hp.trans ?_⟩
        exact (List.prefix_cons_inj c).mpr (block_prefix_text second? t)
      rw [text_char_cons, text_char_cons, Text.contains, Text.contains, hprefix, hprefix, ih hrest]

theorem isClear_of_append_left {part : List Char} {front t : List Cell}
    (h : isClear part (front ++ t) = true) : isClear part t = true := by
  induction front with
  | nil => exact h
  | cons cell front ih =>
    cases cell with
    | char c => exact ih (isClear_char.mp h).2
    | gap first second => exact ih h

/-! ### Replacing -/

theorem exists_append_of_prefix_block {part : List Char} {t : List Cell} (h : part <+: block t) :
    ∃ rest, t = part.map .char ++ rest := by
  induction part generalizing t with
  | nil => exact ⟨t, rfl⟩
  | cons c part ih =>
    rcases t with _ | ⟨d | _, t⟩
    · simp [block] at h
    · obtain ⟨rfl, hpart⟩ := List.cons_prefix_cons.mp h
      obtain ⟨rest, rfl⟩ := ih hpart
      exact ⟨rest, rfl⟩
    · simp [block] at h

/-- Replaces `part` where it stands between gaps, after `skip` cells that belong to the last
match. -/
def replace (part new : List Char) : Nat → List Cell → List Cell
  | _, [] => []
  | skip + 1, _ :: t => replace part new skip t
  | 0, .gap first second :: t => .gap first second :: replace part new 0 t
  | 0, .char c :: t =>
    if part.isPrefixOf (c :: block t) then
      new.map .char ++ replace part new (part.length - 1) t
    else .char c :: replace part new 0 t

theorem block_map_append (cs : List Char) (t : List Cell) :
    block (cs.map .char ++ t) = cs ++ block t := by
  induction cs with
  | nil => rfl
  | cons c cs ih => exact congrArg (c :: ·) ih

theorem replace_length_append (part new : List Char) (front t : List Cell) :
    replace part new front.length (front ++ t) = replace part new 0 t := by
  induction front with
  | nil => rfl
  | cons cell front ih => exact ih

theorem replace_append {part : List Char} (h : part ≠ []) (new : List Char) (t : List Cell) :
    replace part new 0 (part.map .char ++ t) = new.map .char ++ replace part new 0 t := by
  cases part with
  | nil => exact absurd rfl h
  | cons c part =>
    have hskip := replace_length_append (c :: part) new (part.map .char) t
    rw [List.length_map] at hskip
    simp [replace, block_map_append, hskip]

theorem replaceFrom_text {part : List Char} (hpart : Framed part) (new : List Char) (n : Nat)
    {t : List Cell} (hn : t.length ≤ n) (h : isClear part t = true) (second? : Bool) :
    replaceFrom part new 0 (text second? t) = text second? (replace part new 0 t) := by
  induction n generalizing t with
  | zero =>
    obtain rfl := List.length_eq_zero_iff.mp (Nat.le_zero.mp hn)
    rfl
  | succ n ih =>
    rcases t with _ | ⟨c | ⟨first, second⟩, t⟩
    · rfl
    · obtain ⟨hblock, hrest⟩ := isClear_char.mp h
      by_cases hhit : part <+: c :: block t
      · obtain ⟨rest, heq⟩ := exists_append_of_prefix_block (t := .char c :: t) hhit
        rw [heq] at h hn ⊢
        have hlen : 0 < part.length := List.length_pos_iff.mpr hpart.ne_nil
        rw [List.length_append, List.length_map] at hn
        have hih := ih (by omega) (isClear_of_append_left h)
        rw [replace_append hpart.ne_nil, text_append, text_append, text_map_char, text_map_char,
          Text.replaceFrom_append hpart.ne_nil, hih]
      · have hmiss : ¬ part <+: c :: text second? t := fun hp => hhit (hblock second? hp)
        have hih := ih (by simpa using hn) hrest
        rw [← List.isPrefixOf_iff_prefix] at hhit
        rw [text_char_cons, Text.replaceFrom_cons new hmiss, hih, replace, if_neg hhit,
          text_char_cons]
    · have hrest : isClear part t = true := h
      have hih := ih (by simpa using hn) hrest
      rw [text_gap_cons, hpart.replaceFrom_blanks fun _ => isBlank_of_mem_gap, hih, replace,
        text_gap_cons]

/-! ### Masks -/

/-- Masks a quoted text that does not stand across a gap. -/
def hide? (state : Mask × List Cell) (part : List Char) : Option (Mask × List Cell) :=
  let (mask, t) := state
  if isClear part t then
    if Text.contains part (text false t) then
      let holder := Mask.placeholder mask.length
      some (mask ++ [(holder, part)], replace part holder 0 t)
    else some state
  else none

def protect? (names : List String) (t : List Cell) : Option (Mask × List Cell) :=
  (Mask.candidates names).foldlM hide? ([], t)

theorem hide_text {part : List Char} (hpart : Framed part) {mask mask' : Mask} {t r : List Cell}
    (h : hide? (mask, t) part = some (mask', r)) (second? : Bool) :
    Mask.hide (mask, text second? t) part = (mask', text second? r) := by
  by_cases hclear : isClear part t = true
  · have hcontains := hpart.contains_text hclear second?
    by_cases hc : Text.contains part (text false t) = true
    · simp only [hide?, hclear, hc, if_true, Option.some.injEq, Prod.mk.injEq] at h
      obtain ⟨rfl, rfl⟩ := h
      have htext := replaceFrom_text hpart (Mask.placeholder mask.length) _ (Nat.le_refl _) hclear
        second?
      simp [Mask.hide, hcontains, hc, Text.replaceAll, htext]
    · simp only [hide?, hclear, hc, if_true] at h
      cases h
      simp [Mask.hide, hcontains, hc]
  · simp [hide?, hclear] at h

theorem foldl_hide_text {parts : List (List Char)} (hparts : ∀ part ∈ parts, Framed part)
    {mask mask' : Mask} {t r : List Cell} (h : parts.foldlM hide? (mask, t) = some (mask', r))
    (second? : Bool) : parts.foldl Mask.hide (mask, text second? t) = (mask', text second? r) := by
  induction parts generalizing mask t with
  | nil =>
    cases h
    rfl
  | cons part parts ih =>
    rw [List.foldlM_cons] at h
    obtain ⟨⟨mid, s⟩, hhide, hrest⟩ := Option.bind_eq_some_iff.mp h
    have hih := ih (fun other hother => hparts other (List.mem_cons_of_mem part hother)) hrest
    rw [List.foldl_cons, hide_text (hparts part List.mem_cons_self) hhide, hih]

theorem protect_text {names : List String} {t r : List Cell} {mask : Mask}
    (h : protect? names t = some (mask, r)) (second? : Bool) :
    Mask.protect names (text second? t) = (mask, text second? r) :=
  foldl_hide_text (fun _ => framed_of_mem_candidates) h second?

end DocQuery.Twin
