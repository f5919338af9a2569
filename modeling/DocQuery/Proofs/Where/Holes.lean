import DocQuery.Proofs.Condition.Bridging
import DocQuery.Proofs.Respacing.Lists

/-! Texts with holes. Names in quotes are masked, the text is spaced anew, and the names are put
back. No blank and no comparator stands in a placeholder or in a name, so all of this comes to
spacing the text itself anew, as long as the text has nothing like a placeholder of its own. -/

namespace DocQuery

open Where (Wordlike isComparatorChar)

namespace Comparison

/-- An operand as it is spelled once its words are read and joined again. -/
def respaced (text : List Char) : List Char :=
  Text.squeeze (spaceComparators text)

theorem countP_respaced {p : Char → Bool} (hp : ∀ c, isBlank c = true → p c = false)
    (text : List Char) : (respaced text).countP p = text.countP p := by
  rw [respaced, Text.countP_squeeze hp, countP_spaceComparators (hp ' ' (by decide))]

theorem respaced_wordlike {text : List Char} (h : Wordlike text) : respaced text = text := by
  rw [respaced, Where.spaceComparators_eq_self fun c hc => (h.forall_mem c hc).2, Text.squeeze,
    Text.words_solid h.solid]
  simp [Text.unwords]

theorem isInfix_of_isInfix_respaced {part text : List Char}
    (hpart : ∀ c ∈ part, isBlank c = false ∧ isComparatorChar c = false)
    (h : part <:+: respaced text) : part <:+: text :=
  isInfix_of_isInfix_spaceComparators hpart
    (Text.isInfix_of_isInfix_squeeze (fun c hc => (hpart c hc).1) h)

end Comparison

namespace Mask

open Comparison (respaced spaceComparators)
open Text (joint replaceFrom squeeze words)

inductive Slot where
  | char (c : Char)
  | hole (k : Nat)

def fill (σ : Nat → List Char) : List Slot → List Char
  | [] => []
  | .char c :: slots => c :: fill σ slots
  | .hole k :: slots => σ k ++ fill σ slots

theorem fill_append (σ : Nat → List Char) (front slots : List Slot) :
    fill σ (front ++ slots) = fill σ front ++ fill σ slots := by
  induction front with
  | nil => rfl
  | cons s front ih => cases s <;> simp [fill, ih]

theorem fill_map_char (σ : Nat → List Char) (text : List Char) :
    fill σ (text.map .char) = text := by
  induction text with
  | nil => rfl
  | cons c text ih => rw [List.map_cons, fill, ih]

theorem fill_map_char_append (σ : Nat → List Char) (text : List Char) (slots : List Slot) :
    fill σ (text.map .char ++ slots) = text ++ fill σ slots := by
  rw [fill_append, fill_map_char]

theorem countP_fill_le {σ τ : Nat → List Char} {p : Char → Bool}
    (h : ∀ k, (σ k).countP p ≤ (τ k).countP p) (slots : List Slot) :
    (fill σ slots).countP p ≤ (fill τ slots).countP p := by
  induction slots with
  | nil => exact Nat.le_refl 0
  | cons s slots ih =>
    cases s with
    | char c =>
      rw [fill, fill, List.countP_cons, List.countP_cons]
      omega
    | hole k =>
      have hk := h k
      rw [fill, fill, List.countP_append, List.countP_append]
      omega

theorem fill_congr {σ τ : Nat → List Char} {slots : List Slot}
    (h : ∀ k, .hole k ∈ slots → σ k = τ k) : fill σ slots = fill τ slots := by
  induction slots with
  | nil => rfl
  | cons s slots ih =>
    have htail := ih fun k hk => h k (List.mem_cons_of_mem s hk)
    cases s with
    | char c => rw [fill, fill, htail]
    | hole k => rw [fill, fill, htail, h k List.mem_cons_self]

/-! ### Spacing anew -/

section Spacing

variable {σ τ : Nat → List Char}

/-- Comparators are never in a hole, so a hole ends them. -/
theorem spaceComparators_append_wordlike {word : List Char} (h : Wordlike word)
    (front text : List Char) : spaceComparators (front ++ (word ++ text)) =
      spaceComparators front ++ (word ++ spaceComparators text) := by
  obtain ⟨c, word, rfl⟩ := List.exists_cons_of_ne_nil h.ne_nil
  rw [List.cons_append, Comparison.spaceComparators_append_cons (h.forall_mem c List.mem_cons_self).2,
    Where.spaceComparators_append fun d hd => (h.forall_mem d (List.mem_cons_of_mem c hd)).2,
    List.cons_append]

theorem exists_fill_spaceComparators (slots : List Slot) :
    ∃ spaced, ∀ σ : Nat → List Char, (∀ k, Wordlike (σ k)) →
      spaceComparators (fill σ slots) = fill σ spaced := by
  suffices h : ∀ front : List Char, ∃ spaced, ∀ σ : Nat → List Char, (∀ k, Wordlike (σ k)) →
      spaceComparators (front ++ fill σ slots) = fill σ spaced from h []
  -- The characters before the first hole are spaced together.
  induction slots with
  | nil =>
    intro front
    refine ⟨(spaceComparators front).map .char, fun σ _ => ?_⟩
    rw [fill, List.append_nil, fill_map_char]
  | cons s slots ih =>
    intro front
    cases s with
    | char c =>
      obtain ⟨spaced, hspaced⟩ := ih (front ++ [c])
      refine ⟨spaced, fun σ hσ => ?_⟩
      rw [← hspaced σ hσ, fill, List.append_assoc, List.singleton_append]
    | hole k =>
      obtain ⟨spaced, hspaced⟩ := ih []
      refine ⟨(spaceComparators front).map .char ++ .hole k :: spaced, fun σ hσ => ?_⟩
      rw [fill, spaceComparators_append_wordlike (hσ k), fill_map_char_append, fill,
        ← hspaced σ hσ, List.nil_append]

theorem words_fill_eq_nil_iff (hσ : ∀ k, Wordlike (σ k)) {slots : List Slot} :
    words (fill σ slots) = [] ↔ ∀ s ∈ slots, ∃ c, s = .char c ∧ isBlank c = true := by
  rw [Text.words_eq_nil_iff]
  induction slots with
  | nil => simp [fill]
  | cons s slots ih =>
    cases s with
    | char c => simp [fill, ih]
    | hole k =>
      obtain ⟨c, word, hword⟩ := List.exists_cons_of_ne_nil (hσ k).ne_nil
      have hc := ((hσ k).forall_mem c (hword ▸ List.mem_cons_self)).1
      simp [fill, hword, hc]

theorem joint_fill (hσ : ∀ k, Wordlike (σ k)) (hτ : ∀ k, Wordlike (τ k)) (slots : List Slot) :
    joint (fill σ slots) = joint (fill τ slots) := by
  have hwords : words (fill σ slots) = [] ↔ words (fill τ slots) = [] := by
    rw [words_fill_eq_nil_iff hσ, words_fill_eq_nil_iff hτ]
  have hhead : (fill σ slots).head?.any isBlank = (fill τ slots).head?.any isBlank := by
    rcases slots with _ | ⟨_ | k, slots⟩
    · rfl
    · rfl
    · obtain ⟨c, word, hword⟩ := List.exists_cons_of_ne_nil (hσ k).ne_nil
      obtain ⟨d, word', hword'⟩ := List.exists_cons_of_ne_nil (hτ k).ne_nil
      have hc := ((hσ k).forall_mem c (hword ▸ List.mem_cons_self)).1
      have hd := ((hτ k).forall_mem d (hword' ▸ List.mem_cons_self)).1
      simp [fill, hword, hword', hc, hd]
  have hempty : (words (fill σ slots)).isEmpty = (words (fill τ slots)).isEmpty := by
    rw [Bool.eq_iff_iff, List.isEmpty_iff, List.isEmpty_iff, hwords]
  rw [joint, joint, hhead, hempty]

theorem exists_fill_squeeze (slots : List Slot) :
    ∃ squeezed, ∀ σ : Nat → List Char, (∀ k, Wordlike (σ k)) →
      squeeze (fill σ slots) = fill σ squeezed := by
  have hquote : ∀ _ : Nat, Wordlike ['\''] := fun _ => ⟨by decide, by decide⟩
  induction slots with
  | nil => exact ⟨[], fun _ _ => rfl⟩
  | cons s slots ih =>
    obtain ⟨squeezed, hsqueezed⟩ := ih
    obtain ⟨rest, hrest⟩ : ∃ rest, ∀ σ : Nat → List Char, (∀ k, Wordlike (σ k)) →
        joint (fill σ slots) ++ squeeze (fill σ slots) = fill σ rest := by
      refine ⟨(joint (fill (fun _ => ['\'']) slots)).map .char ++ squeezed, fun σ hσ => ?_⟩
      rw [fill_map_char_append, hsqueezed σ hσ, joint_fill hσ hquote]
    cases s with
    | char c =>
      by_cases hc : isBlank c = true
      · refine ⟨squeezed, fun σ hσ => ?_⟩
        rw [fill, Text.squeeze_cons_blank hc, hsqueezed σ hσ]
      · refine ⟨.char c :: rest, fun σ hσ => ?_⟩
        rw [fill, Text.squeeze_cons (by simpa using hc), hrest σ hσ, fill]
    | hole k =>
      refine ⟨.hole k :: rest, fun σ hσ => ?_⟩
      rw [fill, Text.squeeze_append_solid (hσ k).solid, hrest σ hσ, fill]

/-- What stands in the holes does not count when a text is spaced anew. -/
theorem exists_fill_respaced (slots : List Slot) :
    ∃ spaced, ∀ σ : Nat → List Char, (∀ k, Wordlike (σ k)) →
      respaced (fill σ slots) = fill σ spaced := by
  obtain ⟨spaced, hspaced⟩ := exists_fill_spaceComparators slots
  obtain ⟨squeezed, hsqueezed⟩ := exists_fill_squeeze spaced
  exact ⟨squeezed, fun σ hσ => by rw [respaced, hspaced σ hσ, hsqueezed σ hσ]⟩

end Spacing

theorem map_char_isPrefix_of_quotes {run : List Char} (slots : List Slot) (hrun : '\'' ∉ run)
    (h : run <+: fill (fun _ => ['\'']) slots) : run.map .char <+: slots := by
  induction run generalizing slots with
  | nil => exact List.nil_prefix
  | cons c run ih =>
    rcases slots with _ | ⟨d | k, slots⟩
    · simp [fill] at h
    · obtain ⟨rfl, htail⟩ := List.cons_prefix_cons.mp h
      exact List.cons_prefix_cons.mpr ⟨rfl, ih slots (fun hm => hrun (List.mem_cons_of_mem c hm)) htail⟩
    · obtain ⟨rfl, -⟩ := List.cons_prefix_cons.mp h
      exact absurd List.mem_cons_self hrun

theorem map_char_isInfix_of_quotes {run : List Char} {slots : List Slot} (hrun : '\'' ∉ run)
    (h : run <:+: fill (fun _ => ['\'']) slots) : run.map .char <:+: slots := by
  induction slots with
  | nil => simpa [fill] using h
  | cons s slots ih =>
    have htail : run <:+: fill (fun _ => ['\'']) slots → run.map .char <:+: s :: slots :=
      fun h => (ih h).trans (List.suffix_cons s slots).isInfix
    cases s with
    | char c =>
      rcases List.infix_cons_iff.mp h with h | h
      · exact (map_char_isPrefix_of_quotes (.char c :: slots) hrun h).isInfix
      · exact htail h
    | hole k =>
      rcases List.infix_cons_iff.mp h with h | h
      · exact (map_char_isPrefix_of_quotes (.hole k :: slots) hrun h).isInfix
      · exact htail h

theorem wordlike_placeholder (k : Nat) : Wordlike (placeholder k) := by
  constructor
  · exact List.cons_ne_nil _ _
  · intro c hc
    rcases mem_placeholder hc with hc | hc
    · have hstart : ∀ d ∈ "__literal_".toList, isBlank d = false ∧ isComparatorChar d = false := by
        decide
      exact hstart c hc
    · exact ⟨isBlank_of_isDigit hc, Where.isComparatorChar_of_class hc (by decide)⟩

/-! ### Making holes -/

/-- A name in quotes, as it is looked for: one word that is no placeholder. -/
structure QuotedName (literal : List Char) : Prop where
  exists_eq : ∃ quote name, Literal.isQuote quote = true ∧ NoQuote name ∧
    Text.contains "__literal_".toList name = false ∧ literal = quote :: (name ++ [quote])
  wordlike : Wordlike literal

/-- The occurrences of a text become holes, from the left to the right. -/
inductive Punched (literal : List Char) (k : Nat) : List Slot → List Slot → Prop where
  | nil : Punched literal k [] []
  | hole (j : Nat) {slots rest : List Slot} (h : Punched literal k slots rest) :
    Punched literal k (.hole j :: slots) (.hole j :: rest)
  | char (c : Char) {slots rest : List Slot} (h : Punched literal k slots rest)
    (free : ¬ literal.map .char <+: .char c :: slots) :
    Punched literal k (.char c :: slots) (.char c :: rest)
  | found {slots rest : List Slot} (h : Punched literal k slots rest) :
    Punched literal k (literal.map .char ++ slots) (.hole k :: rest)

section Punching

variable {literal : List Char} {k : Nat} {slots punched : List Slot}

theorem Punched.fill_eq (h : Punched literal k slots punched) {σ : Nat → List Char}
    (hk : σ k = literal) : fill σ punched = fill σ slots := by
  induction h with
  | nil => rfl
  | hole j _ ih => rw [fill, fill, ih]
  | char c _ _ ih => rw [fill, fill, ih]
  | found _ ih => rw [fill, fill_map_char_append, ih, hk]

theorem Punched.eq_of_hole_mem (h : Punched literal k slots punched) {j : Nat}
    (hj : .hole j ∈ punched) : .hole j ∈ slots ∨ j = k := by
  induction h with
  | nil => cases hj
  | hole i _ ih =>
    rcases List.mem_cons.mp hj with heq | hj
    · exact .inl (heq ▸ List.mem_cons_self)
    · exact (ih hj).imp_left (List.mem_cons_of_mem _)
  | char c _ _ ih =>
    rcases List.mem_cons.mp hj with heq | hj
    · cases heq
    · exact (ih hj).imp_left (List.mem_cons_of_mem _)
  | found _ ih =>
    rcases List.mem_cons.mp hj with heq | hj
    · cases heq
      exact .inr rfl
    · exact (ih hj).imp_left (List.mem_append_right _)

theorem not_map_char_isPrefix_hole {run : List Char} (hne : run ≠ []) :
    ¬ run.map Slot.char <+: .hole k :: slots := by
  cases run with
  | nil => exact absurd rfl hne
  | cons c run => simp [List.cons_prefix_cons]

theorem Punched.isPrefix (h : Punched literal k slots punched) {run : List Char}
    (hrun : run.map Slot.char <+: punched) : run.map Slot.char <+: slots := by
  induction h generalizing run with
  | nil => exact hrun
  | char c _ _ ih =>
    cases run with
    | nil => exact List.nil_prefix
    | cons d run =>
      obtain ⟨heq, htail⟩ := List.cons_prefix_cons.mp hrun
      exact List.cons_prefix_cons.mpr ⟨heq, ih htail⟩
  | _ =>
    by_cases hne : run = []
    · rw [hne]
      exact List.nil_prefix
    · exact absurd hrun (not_map_char_isPrefix_hole hne)

theorem Punched.isInfix (h : Punched literal k slots punched) {run : List Char}
    (hrun : run.map Slot.char <:+: punched) : run.map Slot.char <:+: slots := by
  by_cases hne : run = []
  · rw [hne]
    exact List.nil_infix
  · induction h with
    | nil => exact hrun
    | hole j _ ih =>
      have htail := (List.infix_cons_iff.mp hrun).resolve_left (not_map_char_isPrefix_hole hne)
      exact (ih htail).trans (List.suffix_cons _ _).isInfix
    | char c h free ih =>
      rcases List.infix_cons_iff.mp hrun with hrun | hrun
      · exact ((h.char c free).isPrefix hrun).isInfix
      · exact (ih hrun).trans (List.suffix_cons _ _).isInfix
    | found _ ih =>
      have htail := (List.infix_cons_iff.mp hrun).resolve_left (not_map_char_isPrefix_hole hne)
      exact (ih htail).trans (List.suffix_append _ _).isInfix

theorem Punched.not_isInfix (h : Punched literal k slots punched) (hne : literal ≠ []) :
    ¬ literal.map Slot.char <:+: punched := by
  intro hrun
  induction h with
  | nil => simp [hne] at hrun
  | hole j _ ih =>
    exact ih ((List.infix_cons_iff.mp hrun).resolve_left (not_map_char_isPrefix_hole hne))
  | char c h free ih =>
    rcases List.infix_cons_iff.mp hrun with hrun | hrun
    · exact free ((h.char c free).isPrefix hrun)
    · exact ih hrun
  | found _ ih =>
    exact ih ((List.infix_cons_iff.mp hrun).resolve_left (not_map_char_isPrefix_hole hne))

/-- Up to its closing quote a name is never found across a placeholder. -/
theorem map_char_isPrefix_of_concat {quote : Char} (hquote : Literal.isQuote quote = true)
    {name : List Char} (hclear : Text.contains "__literal_".toList name = false)
    (h : name ++ [quote] <+: fill placeholder slots) :
    (name ++ [quote]).map Slot.char <+: slots := by
  have hnil : NoQuote [] := fun _ hc => by cases hc
  induction name generalizing slots with
  | nil =>
    rcases slots with _ | ⟨c | j, slots⟩
    · simp [fill] at h
    · obtain ⟨rfl, -⟩ := List.cons_prefix_cons.mp h
      exact List.cons_prefix_cons.mpr ⟨rfl, List.nil_prefix⟩
    · exact absurd h (not_concat_isPrefix_placeholder hquote hclear hnil j _)
  | cons c name ih =>
    rcases slots with _ | ⟨d | j, slots⟩
    · simp [fill] at h
    · obtain ⟨rfl, htail⟩ := List.cons_prefix_cons.mp h
      have hclear' : Text.contains "__literal_".toList name = false :=
        clear_iff.mpr fun hoccurs =>
          clear_iff.mp hclear (hoccurs.trans (List.suffix_cons c name).isInfix)
      exact List.cons_prefix_cons.mpr ⟨rfl, ih hclear' htail⟩
    · exact absurd h (not_concat_isPrefix_placeholder hquote hclear hnil j _)

theorem QuotedName.isPrefix_fill_iff (hliteral : QuotedName literal) (slots : List Slot) :
    literal <+: fill placeholder slots ↔ literal.map Slot.char <+: slots := by
  obtain ⟨quote, name, hquote, -, hclear, rfl⟩ := hliteral.exists_eq
  constructor
  · intro h
    rcases slots with _ | ⟨c | j, slots⟩
    · simp [fill] at h
    · obtain ⟨rfl, htail⟩ := List.cons_prefix_cons.mp h
      exact List.cons_prefix_cons.mpr ⟨rfl, map_char_isPrefix_of_concat hquote hclear htail⟩
    · obtain ⟨rfl, -⟩ := List.cons_prefix_cons.mp h
      exact absurd hquote (by decide)
  · rintro ⟨rest, rfl⟩
    rw [fill_map_char_append]
    exact List.prefix_append _ _

theorem QuotedName.isInfix_fill_iff (hliteral : QuotedName literal) (slots : List Slot) :
    literal <:+: fill placeholder slots ↔ literal.map Slot.char <:+: slots := by
  constructor
  · intro h
    induction slots with
    | nil => simpa [fill] using h
    | cons s slots ih =>
      cases s with
      | char c =>
        rcases List.infix_cons_iff.mp h with h | h
        · exact ((hliteral.isPrefix_fill_iff (.char c :: slots)).mp h).isInfix
        · exact (ih h).trans (List.suffix_cons _ _).isInfix
      | hole j =>
        obtain ⟨quote, name, hquote, -, -, rfl⟩ := hliteral.exists_eq
        have hfree := (noQuote_placeholder j).notMem hquote
        exact (ih (isInfix_of_isInfix_append hfree h)).trans (List.suffix_cons _ _).isInfix
  · rintro ⟨front, rest, rfl⟩
    refine ⟨fill placeholder front, fill placeholder rest, ?_⟩
    rw [fill_append, fill_append, fill_map_char]

theorem QuotedName.exists_punched (hliteral : QuotedName literal) (k : Nat) (slots : List Slot) :
    ∃ punched, Punched literal k slots punched ∧
      replaceFrom literal (placeholder k) 0 (fill placeholder slots) = fill placeholder punched := by
  have hne := hliteral.wordlike.ne_nil
  induction hlength : slots.length using Nat.strong_induction_on generalizing slots with
  | _ n ih =>
    rcases slots with _ | ⟨c | j, slots⟩
    · exact ⟨[], .nil, by simp [fill, replaceFrom]⟩
    · by_cases hfound : literal.map Slot.char <+: .char c :: slots
      · obtain ⟨rest, hrest⟩ := hfound
        have hlt : rest.length < n := by
          have hpos := List.length_pos_of_ne_nil hne
          rw [← hlength, ← hrest, List.length_append, List.length_map]
          omega
        obtain ⟨punched, hpunched, heq⟩ := ih rest.length hlt rest rfl
        refine ⟨.hole k :: punched, hrest ▸ hpunched.found, ?_⟩
        rw [← hrest, fill_map_char_append, Text.replaceFrom_append hne, heq, fill]
      · obtain ⟨punched, hpunched, heq⟩ :=
          ih slots.length (by rw [← hlength]; exact Nat.lt_succ_self _) slots rfl
        refine ⟨.char c :: punched, hpunched.char c hfound, ?_⟩
        rw [← hliteral.isPrefix_fill_iff] at hfound
        rw [fill, Text.replaceFrom_cons _ hfound, heq, fill]
    · obtain ⟨punched, hpunched, heq⟩ :=
        ih slots.length (by rw [← hlength]; exact Nat.lt_succ_self _) slots rfl
      refine ⟨.hole j :: punched, hpunched.hole j, ?_⟩
      obtain ⟨quote, name, hquote, -, -, rfl⟩ := hliteral.exists_eq
      rw [fill, Text.replaceFrom_append_of_notMem ((noQuote_placeholder j).notMem hquote), heq, fill]

end Punching

/-! ### Closing the holes -/

/-- No placeholder is spelled in the text around the holes. -/
def Clean (slots : List Slot) : Prop :=
  ¬ "literal_".toList.map Slot.char <:+: slots

/-- Every hole holds its placeholder or a name in quotes. -/
def Held (σ : Nat → List Char) : Prop :=
  ∀ k, σ k = placeholder k ∨ QuotedName (σ k)

section Closing

variable {σ : Nat → List Char} {slots : List Slot}

theorem Clean.tail {s : Slot} (h : Clean (s :: slots)) : Clean slots :=
  fun hoccurs => h (hoccurs.trans (List.suffix_cons s slots).isInfix)

theorem Held.exists_cons (h : Held σ) (k : Nat) :
    ∃ c rest, σ k = c :: rest ∧ (Literal.isQuote c = true ∨ c = '_' ∧ rest.head? = some '_') := by
  rcases h k with heq | hquoted
  · exact ⟨'_', _, heq, .inr ⟨rfl, rfl⟩⟩
  · obtain ⟨quote, name, hquote, -, -, heq⟩ := hquoted.exists_eq
    exact ⟨quote, _, heq, .inl hquote⟩

theorem exists_of_letters_isPrefix (hσ : Held σ) {letters text : List Char}
    (hletters : ∀ c ∈ letters, Literal.isQuote c = false ∧ c ≠ '_')
    (h : letters ++ text <+: fill σ slots) :
    ∃ rest, slots = letters.map .char ++ rest ∧ text <+: fill σ rest := by
  induction letters generalizing slots with
  | nil => exact ⟨slots, rfl, h⟩
  | cons c letters ih =>
    obtain ⟨hquote, hne⟩ := hletters c List.mem_cons_self
    rcases slots with _ | ⟨d | k, slots⟩
    · simp [fill] at h
    · obtain ⟨rfl, htail⟩ := List.cons_prefix_cons.mp h
      obtain ⟨rest, rfl, hrest⟩ := ih (fun e he => hletters e (List.mem_cons_of_mem c he)) htail
      exact ⟨rest, rfl, hrest⟩
    · obtain ⟨d, rest, heq, hd⟩ := hσ.exists_cons k
      rw [fill, heq] at h
      obtain ⟨rfl, -⟩ := List.cons_prefix_cons.mp h
      rcases hd with hd | ⟨rfl, -⟩
      · rw [hquote] at hd
        cases hd
      · exact absurd rfl hne

theorem not_isPrefix_fill (hσ : Held σ) (hclean : Clean slots) {d : Char} (hd : d.isDigit = true)
    (text : List Char) : ¬ "literal_".toList ++ d :: text <+: fill σ slots := by
  intro h
  have hsplit : "literal_".toList ++ d :: text = "literal".toList ++ '_' :: d :: text := rfl
  rw [hsplit] at h
  obtain ⟨rest, rfl, hrest⟩ := exists_of_letters_isPrefix hσ (by decide) h
  rcases rest with _ | ⟨c | k, rest⟩
  · simp [fill] at hrest
  · obtain ⟨rfl, -⟩ := List.cons_prefix_cons.mp hrest
    exact hclean ⟨[], rest, rfl⟩
  · obtain ⟨c, tail, heq, hc⟩ := hσ.exists_cons k
    rw [fill, heq] at hrest
    obtain ⟨rfl, htail⟩ := List.cons_prefix_cons.mp hrest
    rcases hc with hc | ⟨-, hc⟩
    · cases hc
    · obtain ⟨tail, rfl⟩ : ∃ rest, tail = '_' :: rest := by
        cases tail with
        | nil => cases hc
        | cons e rest =>
          cases hc
          exact ⟨rest, rfl⟩
      obtain ⟨rfl, -⟩ := List.cons_prefix_cons.mp htail
      cases hd

theorem not_underscore_isPrefix_fill (hσ : Held σ) (hclean : Clean slots) {d : Char}
    (hd : d.isDigit = true) (text : List Char) :
    ¬ '_' :: ("literal_".toList ++ d :: text) <+: fill σ slots := by
  intro h
  rcases slots with _ | ⟨c | k, slots⟩
  · simp [fill] at h
  · exact not_isPrefix_fill hσ hclean.tail hd text (List.cons_prefix_cons.mp h).2
  · obtain ⟨c, tail, heq, hc⟩ := hσ.exists_cons k
    rw [fill, heq] at h
    obtain ⟨rfl, htail⟩ := List.cons_prefix_cons.mp h
    rcases hc with hc | ⟨-, hc⟩
    · cases hc
    · cases tail with
      | nil => cases hc
      | cons e rest =>
        cases hc
        have hfirst := (List.cons_prefix_cons.mp htail).1
        cases hfirst

theorem exists_placeholder_eq (k : Nat) : ∃ d digits, d.isDigit = true ∧ '_' ∉ d :: digits ∧
    placeholder k = '_' :: '_' :: ("literal_".toList ++ d :: (digits ++ ['_', '_'])) := by
  have hne : Nat.toDigits 10 k ≠ [] := Nat.toDigits_ne_nil
  obtain ⟨d, digits, hdigits⟩ := List.exists_cons_of_ne_nil hne
  have hmem : d ∈ Nat.toDigits 10 k := by
    rw [hdigits]
    exact List.mem_cons_self
  have hd := Nat.isDigit_of_mem_toDigits (by decide) (by decide) hmem
  have hnot := notMem_toDigits (show '_'.isDigit = false by decide) k
  rw [hdigits] at hnot
  have hholder : placeholder k =
      '_' :: '_' :: ("literal_".toList ++ d :: (digits ++ ['_', '_'])) := by
    unfold placeholder
    rw [hdigits]
    simp
  exact ⟨d, digits, hd, hnot, hholder⟩

theorem eq_of_placeholder_isPrefix {i j : Nat} {text : List Char}
    (h : placeholder i <+: placeholder j ++ text) : i = j := by
  have hsplit : ∀ n, placeholder n = "__literal_".toList ++ (Nat.toDigits 10 n ++ ['_', '_']) :=
    fun n => List.append_assoc _ _ _
  rw [hsplit, hsplit, List.append_assoc, List.prefix_append_right_inj, List.append_assoc] at h
  have hdigits : Nat.toDigits 10 i ++ ['_'] <+: Nat.toDigits 10 j ++ '_' :: '_' :: text :=
    (List.prefix_append_right_inj _).mpr ⟨['_'], rfl⟩ |>.trans h
  have hsame := eq_of_concat_isPrefix (notMem_toDigits (by decide) i)
    (notMem_toDigits (by decide) j) hdigits
  have hholder : placeholder i = placeholder j := by rw [hsplit, hsplit, hsame]
  exact eq_of_placeholder_isInfix (hholder ▸ List.infix_rfl)

/-- A placeholder is not found in another one, also where the text goes on behind it. -/
theorem replaceFrom_placeholder_append (hσ : Held σ) (hclean : Clean slots) {i j : Nat}
    (hne : i ≠ j) (new : List Char) :
    replaceFrom (placeholder i) new 0 (placeholder j ++ fill σ slots) =
      placeholder j ++ replaceFrom (placeholder i) new 0 (fill σ slots) := by
  obtain ⟨d, digits, hd, -, hi⟩ := exists_placeholder_eq i
  obtain ⟨e, digits', -, hmem, hj⟩ := exists_placeholder_eq j
  have hsplit : ∀ text, placeholder j ++ text =
      '_' :: '_' :: ("literal".toList ++ '_' :: (e :: digits' ++ '_' :: '_' :: text)) := by
    intro text
    rw [hj]
    simp
  have hstart : ¬ placeholder i <+: placeholder j ++ fill σ slots :=
    fun h => hne (eq_of_placeholder_isPrefix h)
  have hend := not_isPrefix_fill hσ hclean hd (digits ++ ['_', '_'])
  have hlast := not_underscore_isPrefix_fill hσ hclean hd (digits ++ ['_', '_'])
  have hsecond : ∀ c text, c ≠ '_' → ¬ placeholder i <+: '_' :: c :: text := by
    intro c text hc h
    rw [hi] at h
    exact hc (List.cons_prefix_cons.mp (List.cons_prefix_cons.mp h).2).1.symm
  have hfirst : e ≠ '_' := fun heq => hmem (heq ▸ List.mem_cons_self)
  have hletter : ∀ text, ¬ placeholder i <+: '_' :: ("literal".toList ++ text) :=
    fun text => hsecond 'l' ("iteral".toList ++ text) (by decide)
  have hnumber : ∀ text, ¬ placeholder i <+: '_' :: (e :: digits' ++ text) :=
    fun text => hsecond e (digits' ++ text) hfirst
  rw [hsplit] at hstart
  rw [hsplit, hsplit, Text.replaceFrom_cons _ hstart, Text.replaceFrom_cons _ (hletter _)]
  rw [hi] at hnumber ⊢
  rw [Text.replaceFrom_append_of_notMem (by decide), Text.replaceFrom_cons _ (hnumber _),
    Text.replaceFrom_append_of_notMem hmem, Text.replaceFrom_cons, Text.replaceFrom_cons]
  · simpa [List.cons_prefix_cons] using hlast
  · simpa [List.cons_prefix_cons] using hend

theorem replaceFrom_fill (hσ : Held σ) (hclean : Clean slots) {k : Nat}
    (hk : σ k = placeholder k) (literal : List Char) :
    replaceFrom (placeholder k) literal 0 (fill σ slots) =
      fill (Function.update σ k literal) slots := by
  obtain ⟨d, digits, hd, -, hholder⟩ := exists_placeholder_eq k
  have hne : placeholder k ≠ [] := by
    rw [hholder]
    exact List.cons_ne_nil _ _
  induction slots with
  | nil => simp [fill, replaceFrom]
  | cons s slots ih =>
    have htail := ih hclean.tail
    cases s with
    | char c =>
      have hfree : ¬ placeholder k <+: c :: fill σ slots := by
        intro h
        rw [hholder] at h
        exact not_underscore_isPrefix_fill hσ hclean.tail hd _ (List.cons_prefix_cons.mp h).2
      rw [fill, Text.replaceFrom_cons _ hfree, htail, fill]
    | hole j =>
      rw [fill, fill]
      by_cases hj : j = k
      · rw [hj, hk, Text.replaceFrom_append hne, htail, Function.update_self]
      · rw [Function.update_of_ne hj, ← htail]
        rcases hσ j with heq | hquoted
        · rw [heq]
          exact replaceFrom_placeholder_append hσ hclean.tail (Ne.symm hj) literal
        · obtain ⟨quote, name, hquote, -, hclear, heq⟩ := hquoted.exists_eq
          have hfree := (noQuote_placeholder k).notMem hquote
          have hname := Text.replaceFrom_of_not_isInfix literal (not_placeholder_isInfix hclear k)
          rw [heq, List.cons_append, ← List.nil_append (quote :: _),
            Text.replaceFrom_append_cons hne hfree, List.append_assoc, List.singleton_append,
            Text.replaceFrom_append_cons hne hfree, hname]
          simp [replaceFrom]

/-- What a hole holds once it is restored. -/
def held (literals : List (List Char)) (k : Nat) : List Char :=
  literals[k]?.getD (placeholder k)

theorem held_held {literals : List (List Char)} (h : ∀ literal ∈ literals, QuotedName literal) :
    Held (held literals) := by
  intro k
  cases hk : literals[k]? with
  | none => exact .inl (by simp [held, hk])
  | some literal =>
    have heq : held literals k = literal := by simp [held, hk]
    rw [heq]
    exact .inr (h literal (List.mem_of_getElem? hk))

theorem held_concat (literals : List (List Char)) (literal : List Char) :
    held (literals ++ [literal]) = Function.update (held literals) literals.length literal := by
  funext k
  by_cases hk : k = literals.length
  · rw [hk, Function.update_self]
    simp [held]
  · rw [Function.update_of_ne hk]
    rcases Nat.lt_or_gt_of_ne hk with hlt | hgt
    · simp [held, List.getElem?_append_left hlt]
    · simp [held, List.getElem?_append_right hgt.le, Nat.sub_ne_zero_of_lt hgt, hgt.le]

theorem restore_fill {literals : List (List Char)} (h : ∀ literal ∈ literals, QuotedName literal)
    (hclean : Clean slots) :
    restore (numbered literals) (fill placeholder slots) = fill (held literals) slots := by
  induction literals using List.reverseRecOn with
  | nil => rfl
  | append_singleton literals literal ih =>
    have hinit := fun l hl => h l (List.mem_append_left [literal] hl)
    have hlast : held literals literals.length = placeholder literals.length := by simp [held]
    rw [numbered_concat, restore_append_mask, ih hinit, length_numbered, held_concat]
    exact replaceFrom_fill (held_held hinit) hclean hlast literal

end Closing

theorem exists_numbered_foldl_hide (cs literals : List (List Char)) (text : List Char) :
    ∃ last masked, cs.foldl hide (numbered literals, text) = (numbered last, masked) := by
  induction cs generalizing literals text with
  | nil => exact ⟨literals, text, rfl⟩
  | cons c cs ih =>
    by_cases hc : c <:+: text
    · rw [List.foldl_cons, hide_numbered_of_isInfix hc]
      exact ih (literals ++ [c]) _
    · rw [List.foldl_cons, hide_of_not_isInfix hc]
      exact ih literals text

/-- Some quoted names have been looked for in a text, and those that were found are holes now. -/
structure Masked (text : List Char) (done literals : List (List Char)) (slots : List Slot) :
    Prop where
  fill_eq : fill (held literals) slots = text
  mem_done : ∀ literal ∈ literals, literal ∈ done
  hole_lt : ∀ k, .hole k ∈ slots → k < literals.length
  isInfix : ∀ run : List Char, run.map .char <:+: slots → run <:+: text
  not_isInfix : ∀ literal ∈ done, ¬ literal.map .char <:+: slots

namespace Masked

variable {text : List Char} {done literals : List (List Char)} {slots : List Slot}

theorem start (text : List Char) : Masked text [] [] (text.map .char) where
  fill_eq := fill_map_char _ text
  mem_done _ h := h
  hole_lt k h := by simp at h
  isInfix run h := by
    obtain ⟨front, rest, heq⟩ := h
    refine ⟨fill placeholder front, fill placeholder rest, ?_⟩
    rw [← fill_map_char placeholder text, ← heq, fill_append, fill_append, fill_map_char]
  not_isInfix _ h := by cases h

theorem hide (h : Masked text done literals slots) {literal : List Char}
    (hliteral : QuotedName literal) : ∃ next punched,
      Mask.hide (numbered literals, fill placeholder slots) literal =
        (numbered next, fill placeholder punched) ∧
      Masked text (done ++ [literal]) next punched := by
  by_cases hfound : literal <:+: fill placeholder slots
  · obtain ⟨punched, hpunched, heq⟩ := hliteral.exists_punched literals.length slots
    refine ⟨literals ++ [literal], punched, ?_, ?_, ?_, ?_, ?_, ?_⟩
    · rw [hide_numbered_of_isInfix hfound, Text.replaceAll, heq]
    · have hold : ∀ k, .hole k ∈ slots →
          held (literals ++ [literal]) k = held literals k := by
        intro k hk
        rw [held_concat, Function.update_of_ne (h.hole_lt k hk).ne]
      rw [hpunched.fill_eq (by simp [held]), fill_congr hold, h.fill_eq]
    · intro l hl
      rcases List.mem_append.mp hl with hl | hl
      · exact List.mem_append_left _ (h.mem_done l hl)
      · exact List.mem_append_right _ hl
    · intro k hk
      rw [List.length_append, List.length_singleton]
      rcases hpunched.eq_of_hole_mem hk with hk | rfl
      · exact Nat.lt_succ_of_lt (h.hole_lt k hk)
      · exact Nat.lt_succ_self _
    · exact fun run hrun => h.isInfix run (hpunched.isInfix hrun)
    · intro l hl
      rcases List.mem_append.mp hl with hl | hl
      · exact fun hrun => h.not_isInfix l hl (hpunched.isInfix hrun)
      · rw [List.mem_singleton.mp hl]
        exact hpunched.not_isInfix hliteral.wordlike.ne_nil
  · refine ⟨literals, slots, hide_of_not_isInfix hfound, h.fill_eq, ?_, h.hole_lt, h.isInfix, ?_⟩
    · exact fun l hl => List.mem_append_left _ (h.mem_done l hl)
    · intro l hl
      rcases List.mem_append.mp hl with hl | hl
      · exact h.not_isInfix l hl
      · rw [List.mem_singleton.mp hl, ← hliteral.isInfix_fill_iff]
        exact hfound

theorem foldl_hide {cs : List (List Char)} (h : Masked text done literals slots)
    (hcs : ∀ c ∈ cs, QuotedName c) : ∃ last punched,
      cs.foldl Mask.hide (numbered literals, fill placeholder slots) =
        (numbered last, fill placeholder punched) ∧
      Masked text (done ++ cs) last punched := by
  induction cs generalizing done literals slots with
  | nil => exact ⟨literals, slots, rfl, by rwa [List.append_nil]⟩
  | cons c cs ih =>
    obtain ⟨next, punched, hhide, hnext⟩ := h.hide (hcs c List.mem_cons_self)
    obtain ⟨last, final, hfold, hlast⟩ := ih hnext fun d hd => hcs d (List.mem_cons_of_mem c hd)
    refine ⟨last, final, ?_, ?_⟩
    · rw [List.foldl_cons, hhide, hfold]
    · rwa [List.append_assoc, List.singleton_append] at hlast

/-- Masking quoted names, spacing anew and restoring comes to spacing anew. -/
theorem restore_respaced (h : Masked text done literals slots) (hdone : ∀ c ∈ done, QuotedName c)
    (hclean : ¬ "literal_".toList <:+: text) :
    restore (numbered literals) (respaced (fill placeholder slots)) = respaced text := by
  have hliterals : ∀ l ∈ literals, QuotedName l := fun l hl => hdone l (h.mem_done l hl)
  obtain ⟨spaced, hspaced⟩ := exists_fill_respaced slots
  have hheld : ∀ k, Wordlike (held literals k) := by
    intro k
    rcases held_held hliterals k with heq | hquoted
    · exact heq ▸ wordlike_placeholder k
    · exact hquoted.wordlike
  have hspaced_clean : Clean spaced := by
    rintro ⟨front, rest, rfl⟩
    -- With quotes in the holes, what looks like a placeholder stands outside of them.
    have hquotes := hspaced (fun _ => ['\'']) fun _ => ⟨by decide, by decide⟩
    rw [fill_append, fill_append, fill_map_char] at hquotes
    have hoccurs := Comparison.isInfix_of_isInfix_respaced (by decide) ⟨_, _, hquotes.symm⟩
    exact hclean (h.isInfix _ (map_char_isInfix_of_quotes (by decide) hoccurs))
  rw [hspaced placeholder wordlike_placeholder, restore_fill hliterals hspaced_clean,
    ← hspaced (held literals) hheld, h.fill_eq]

end Masked

end Mask

end DocQuery
