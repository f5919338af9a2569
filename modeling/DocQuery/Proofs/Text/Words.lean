import DocQuery.Proofs.Text.Trim

/-! Splitting a text into words, and finding and replacing a part of it. -/

namespace DocQuery.Text

/-! ### Words -/

/-- A word: some characters, none of them blank. -/
structure Solid (text : List Char) : Prop where
  ne_nil : text ≠ []
  not_blank : ∀ c ∈ text, isBlank c = false

theorem Solid.tight {text : List Char} (h : Solid text) : Tight text :=
  tight_of_not_blank h.not_blank

theorem words_cons_blank {c : Char} (h : isBlank c = true) (text : List Char) :
    words (c :: text) = words text := by
  cases text <;> simp [words, h]

theorem words_blanks_append {blanks : List Char} (h : ∀ c ∈ blanks, isBlank c = true)
    (text : List Char) : words (blanks ++ text) = words text := by
  induction blanks with
  | nil => rfl
  | cons c blanks ih =>
    rw [List.cons_append, words_cons_blank (h c List.mem_cons_self)]
    exact ih fun d hd => h d (List.mem_cons_of_mem c hd)

theorem words_append {word text : List Char} (hword : Solid word)
    (h : ∀ c ∈ text.head?, isBlank c = true) : words (word ++ text) = word :: words text := by
  obtain ⟨hne, hblank⟩ := hword
  induction word with
  | nil => exact absurd rfl hne
  | cons c word ih =>
    have hc : isBlank c = false := hblank c List.mem_cons_self
    cases word with
    | nil =>
      cases text with
      | nil => simp [words, hc]
      | cons d text => simp [words, hc, h d rfl]
    | cons d word =>
      have hd : isBlank d = false := hblank d (by simp)
      have hwords := ih (by simp) fun e he => hblank e (List.mem_cons_of_mem c he)
      rw [List.cons_append] at hwords
      simp [words, hc, hd, hwords, consFirst]

theorem words_solid {word : List Char} (h : Solid word) : words word = [word] := by
  have hwords : words (word ++ []) = word :: words [] := words_append h (by simp)
  rwa [List.append_nil] at hwords

/-! ### Finding and replacing -/

theorem contains_iff_isInfix {part text : List Char} :
    contains part text = true ↔ part <:+: text := by
  induction text with
  | nil => simp [contains]
  | cons c text ih => simp [contains, ih, List.infix_cons_iff]

theorem replaceFrom_of_not_isInfix {part text : List Char} (new : List Char)
    (h : ¬ part <:+: text) : replaceFrom part new 0 text = text := by
  induction text with
  | nil => rfl
  | cons c text ih =>
    rw [List.infix_cons_iff, not_or] at h
    have hp : part.isPrefixOf (c :: text) = false := by
      rw [← Bool.not_eq_true, List.isPrefixOf_iff_prefix]
      exact h.1
    simp [replaceFrom, hp, ih h.2]

theorem replaceFrom_length_append (part new front text : List Char) :
    replaceFrom part new front.length (front ++ text) = replaceFrom part new 0 text := by
  induction front with
  | nil => rfl
  | cons c front ih => exact ih

theorem replaceFrom_append {part : List Char} (h : part ≠ []) (new text : List Char) :
    replaceFrom part new 0 (part ++ text) = new ++ replaceFrom part new 0 text := by
  cases part with
  | nil => exact absurd rfl h
  | cons c part =>
    have hskip := replaceFrom_length_append (c :: part) new part text
    simp [replaceFrom, hskip]

theorem replaceFrom_cons {part : List Char} {c : Char} {text : List Char} (new : List Char)
    (h : ¬ part <+: c :: text) :
    replaceFrom part new 0 (c :: text) = c :: replaceFrom part new 0 text := by
  have hp : part.isPrefixOf (c :: text) = false := by
    rw [← Bool.not_eq_true, List.isPrefixOf_iff_prefix]
    exact h
  simp [replaceFrom, hp]

theorem replaceAll_of_not_contains {part text : List Char} (new : List Char)
    (h : contains part text = false) : replaceAll part new text = text :=
  replaceFrom_of_not_isInfix new (by simp [← contains_iff_isInfix, h])

theorem replaceFrom_append_of_notMem {c : Char} {front : List Char} (hc : c ∉ front)
    (part new text : List Char) :
    replaceFrom (c :: part) new 0 (front ++ text) =
      front ++ replaceFrom (c :: part) new 0 text := by
  induction front with
  | nil => rfl
  | cons d front ih =>
    have hd : ¬ c :: part <+: d :: (front ++ text) := by
      intro h
      exact hc ((List.cons_prefix_cons.mp h).1 ▸ List.mem_cons_self)
    rw [List.cons_append, replaceFrom_cons new hd, ih fun h => hc (List.mem_cons_of_mem d h),
      List.cons_append]

theorem prefix_of_prefix_append_cons {c : Char} {part front text : List Char} (hc : c ∉ part)
    (h : part <+: front ++ c :: text) : part <+: front := by
  induction part generalizing front with
  | nil => exact List.nil_prefix
  | cons d part ih =>
    cases front with
    | nil => exact absurd ((List.cons_prefix_cons.mp h).1 ▸ List.mem_cons_self) hc
    | cons e front =>
      obtain ⟨rfl, hpart⟩ := List.cons_prefix_cons.mp h
      exact (List.prefix_cons_inj d).mpr (ih (fun hm => hc (List.mem_cons_of_mem d hm)) hpart)

/-- A character that is not in the part cuts a text in two. -/
theorem replaceFrom_append_cons {c : Char} {part : List Char} (hne : part ≠ []) (hc : c ∉ part)
    (new front text : List Char) :
    replaceFrom part new 0 (front ++ c :: text) =
      replaceFrom part new 0 front ++ c :: replaceFrom part new 0 text := by
  induction hn : front.length using Nat.strongRecOn generalizing front with
  | ind n ih =>
    by_cases hpart : part <+: front
    · obtain ⟨rest, rfl⟩ := hpart
      have hlength : rest.length < n := by
        have := List.length_pos_iff.mpr hne
        simp only [List.length_append] at hn
        omega
      rw [List.append_assoc, replaceFrom_append hne, replaceFrom_append hne,
        ih rest.length hlength rest rfl, List.append_assoc]
    · have hnot : ¬ part <+: front ++ c :: text := fun h =>
        hpart (prefix_of_prefix_append_cons hc h)
      cases front with
      | nil =>
        rw [List.nil_append] at hnot ⊢
        rw [replaceFrom_cons new hnot]
        rfl
      | cons d front =>
        rw [List.cons_append] at hnot ⊢
        rw [replaceFrom_cons new hnot, replaceFrom_cons new hpart,
          ih front.length (by simp [← hn]) front rfl, List.cons_append]

theorem replaceAll_append_part {c : Char} {front : List Char} (hc : c ∉ front)
    (part new : List Char) : replaceAll (c :: part) new (front ++ c :: part) = front ++ new := by
  have hlast : replaceFrom (c :: part) new 0 (c :: part ++ []) = new ++ [] :=
    replaceFrom_append (List.cons_ne_nil c part) new []
  rw [List.append_nil, List.append_nil] at hlast
  rw [replaceAll, replaceFrom_append_of_notMem hc, hlast]

end DocQuery.Text
