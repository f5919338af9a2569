import DocQuery.Condition.Mask
import DocQuery.Proofs.Text.Words

/-! Masking a comparison with at most one string: the string becomes one placeholder, and nothing
else changes. -/

namespace DocQuery.Mask

def NoQuote (text : List Char) : Prop :=
  ∀ c ∈ text, Literal.isQuote c = false

instance (text : List Char) : Decidable (NoQuote text) :=
  inferInstanceAs (Decidable (∀ c ∈ text, Literal.isQuote c = false))

theorem NoQuote.append {front text : List Char} (hfront : NoQuote front) (htext : NoQuote text) :
    NoQuote (front ++ text) := by
  intro c hc
  rcases List.mem_append.mp hc with hc | hc
  · exact hfront c hc
  · exact htext c hc

theorem NoQuote.notMem {text : List Char} (h : NoQuote text) {q : Char}
    (hq : Literal.isQuote q = true) : q ∉ text := by
  intro hmem
  rw [h q hmem] at hq
  cases hq

theorem forall_quote {P : Char → Prop} (h : ∀ d ∈ quoteChars, P d) {q : Char}
    (hq : Literal.isQuote q = true) : P q :=
  h q (by simpa [quoteChars, Literal.isQuote, or_assoc] using hq)

def quoted (text : List Char) : List Char :=
  '\'' :: (text ++ ['\''])

theorem eq_of_mem_candidates {names : List String} {c : List Char} (h : c ∈ candidates names) :
    ∃ name ∈ names, name ≠ "" ∧ ∃ q, Literal.isQuote q = true ∧ c = q :: (name.toList ++ [q]) := by
  obtain ⟨name, hname, hc⟩ := List.mem_flatMap.mp h
  obtain ⟨hmem, hne⟩ := List.mem_filter.mp hname
  obtain ⟨q, hq, rfl⟩ := List.mem_map.mp hc
  refine ⟨name, hmem, by simpa using hne, q, ?_, rfl⟩
  simpa [quoteChars, Literal.isQuote, or_assoc] using hq

theorem candidates_quoted {names : List String} (hnames : ∀ name ∈ names, NoQuote name.toList)
    {c : List Char} (hc : c ∈ candidates names) :
    ∃ q name, Literal.isQuote q = true ∧ NoQuote name ∧ c = q :: (name ++ [q]) := by
  obtain ⟨name, hname, -, q, hq, rfl⟩ := eq_of_mem_candidates hc
  exact ⟨q, name.toList, hq, hnames name hname, rfl⟩

theorem mem_candidates {names : List String} {q : Char} (hq : Literal.isQuote q = true)
    {text : List Char} (h : String.ofList text ∈ names) (hne : text ≠ []) :
    q :: (text ++ [q]) ∈ candidates names := by
  refine List.mem_flatMap.mpr ⟨String.ofList text, List.mem_filter.mpr ⟨h, ?_⟩, ?_⟩
  · simpa using hne
  · refine List.mem_map.mpr ⟨q, ?_, by simp⟩
    simpa [quoteChars, Literal.isQuote, or_assoc] using hq

theorem hide_of_not_isInfix {mask : Mask} {text c : List Char} (h : ¬ c <:+: text) :
    hide (mask, text) c = (mask, text) := by
  rw [← Text.contains_iff_isInfix, Bool.not_eq_true] at h
  simp [hide, h]

theorem foldl_hide_of_not_isInfix {cs : List (List Char)} {mask : Mask} {text : List Char}
    (h : ∀ c ∈ cs, ¬ c <:+: text) : cs.foldl hide (mask, text) = (mask, text) := by
  induction cs with
  | nil => rfl
  | cons c cs ih =>
    rw [List.foldl_cons, hide_of_not_isInfix (h c List.mem_cons_self)]
    exact ih fun d hd => h d (List.mem_cons_of_mem c hd)

/-- Where one quoted text occurs, and none once it is hidden, it is all that is hidden. -/
theorem foldl_hide_of_unique {cs : List (List Char)} {literal text masked : List Char} {mask : Mask}
    (hunique : ∀ c ∈ cs, c <:+: text → c = literal) (hhide : hide ([], text) literal = (mask, masked))
    (hafter : ∀ c ∈ cs, ¬ c <:+: masked) (hin : literal ∈ cs) :
    cs.foldl hide ([], text) = (mask, masked) := by
  induction cs with
  | nil => cases hin
  | cons c cs ih =>
    have htail := fun d hd => hafter d (List.mem_cons_of_mem c hd)
    rw [List.foldl_cons]
    by_cases hc : c = literal
    · rw [hc, hhide]
      exact foldl_hide_of_not_isInfix htail
    · have hnot : ¬ c <:+: text := fun hoccurs => hc (hunique c List.mem_cons_self hoccurs)
      rw [hide_of_not_isInfix hnot]
      exact ih (fun d hd => hunique d (List.mem_cons_of_mem c hd)) htail
        ((List.mem_cons.mp hin).resolve_left (Ne.symm hc))

theorem not_isInfix_of_noQuote {names : List String} {text c : List Char} (h : NoQuote text)
    (hc : c ∈ candidates names) : ¬ c <:+: text := by
  intro hoccurs
  obtain ⟨name, _, _, q, hq, rfl⟩ := eq_of_mem_candidates hc
  exact h.notMem hq (hoccurs.subset List.mem_cons_self)

theorem protect_of_noQuote {text : List Char} (h : NoQuote text) (names : List String) :
    protect names text = ([], text) :=
  foldl_hide_of_not_isInfix fun _ hc => not_isInfix_of_noQuote h hc

theorem isInfix_of_isInfix_append {q : Char} {part front text : List Char} (hq : q ∉ front)
    (h : q :: part <:+: front ++ text) : q :: part <:+: text := by
  induction front with
  | nil => exact h
  | cons c front ih =>
    rcases List.infix_cons_iff.mp h with h | h
    · obtain ⟨rfl, _⟩ := List.cons_prefix_cons.mp h
      exact absurd List.mem_cons_self hq
    · exact ih (fun hm => hq (List.mem_cons_of_mem c hm)) h

theorem eq_of_concat_isPrefix {q : Char} {part text rest : List Char} (hpart : q ∉ part)
    (htext : q ∉ text) (h : part ++ [q] <+: text ++ q :: rest) : part = text := by
  induction part generalizing text with
  | nil =>
    cases text with
    | nil => rfl
    | cons c text =>
      obtain ⟨rfl, _⟩ := List.cons_prefix_cons.mp h
      exact absurd List.mem_cons_self htext
  | cons c part ih =>
    cases text with
    | nil =>
      obtain ⟨rfl, _⟩ := List.cons_prefix_cons.mp h
      exact absurd List.mem_cons_self hpart
    | cons d text =>
      obtain ⟨rfl, htail⟩ := List.cons_prefix_cons.mp h
      rw [ih (fun hm => hpart (List.mem_cons_of_mem c hm))
        (fun hm => htext (List.mem_cons_of_mem c hm)) htail]

theorem eq_quoted_of_isInfix {q : Char} {part front text : List Char}
    (hq : Literal.isQuote q = true) (hpart : NoQuote part) (hfront : NoQuote front)
    (htext : NoQuote text) (h : q :: (part ++ [q]) <:+: front ++ quoted text) :
    q :: (part ++ [q]) = quoted text := by
  rcases List.infix_cons_iff.mp (isInfix_of_isInfix_append (hfront.notMem hq) h) with h | h
  · obtain ⟨rfl, h⟩ := List.cons_prefix_cons.mp h
    rw [eq_of_concat_isPrefix (hpart.notMem hq) (htext.notMem hq) h, quoted]
  · have hlength := (isInfix_of_isInfix_append (htext.notMem hq) h).length_le
    simp at hlength

/-- The only quotes are those around a string at the end of the text. -/
structure EndsQuoted (names : List String) (front text : List Char) : Prop where
  front : NoQuote front
  text : NoQuote text
  names : ∀ name ∈ names, NoQuote name.toList

namespace EndsQuoted

variable {names : List String} {front text : List Char}

theorem eq_quoted (h : EndsQuoted names front text) {c : List Char} (hc : c ∈ candidates names)
    (hoccurs : c <:+: front ++ quoted text) : c = quoted text ∧ text ≠ [] := by
  obtain ⟨name, hmem, hne, q, hq, rfl⟩ := eq_of_mem_candidates hc
  have heq := eq_quoted_of_isInfix hq (h.names name hmem) h.front h.text hoccurs
  refine ⟨heq, ?_⟩
  rintro rfl
  have hlength := congrArg List.length heq
  simp [quoted] at hlength
  exact hne hlength

/-- An empty string stays as it is. -/
theorem protect_nil (h : EndsQuoted names front []) :
    protect names (front ++ quoted []) = ([], front ++ quoted []) :=
  foldl_hide_of_not_isInfix fun _ hc hoccurs => (h.eq_quoted hc hoccurs).2 rfl

theorem hide_quoted (h : EndsQuoted names front text) :
    hide ([], front ++ quoted text) (quoted text) =
      ([(placeholder 0, quoted text)], front ++ placeholder 0) := by
  have hcontains : Text.contains (quoted text) (front ++ quoted text) = true :=
    Text.contains_iff_isInfix.mpr (List.suffix_append front _).isInfix
  have hreplace : Text.replaceAll (quoted text) (placeholder 0) (front ++ quoted text) =
      front ++ placeholder 0 :=
    Text.replaceAll_append_part (h.front.notMem (by decide)) _ _
  simp [hide, hcontains, hreplace]

theorem noQuote_placeholder (h : EndsQuoted names front text) :
    NoQuote (front ++ placeholder 0) :=
  h.front.append (by decide)

theorem foldl_hide (h : EndsQuoted names front text) {cs : List (List Char)}
    (hcs : ∀ c ∈ cs, c ∈ candidates names) (hin : quoted text ∈ cs) :
    cs.foldl hide ([], front ++ quoted text) =
      ([(placeholder 0, quoted text)], front ++ placeholder 0) :=
  foldl_hide_of_unique (fun c hc hoccurs => (h.eq_quoted (hcs c hc) hoccurs).1) h.hide_quoted
    (fun c hc => not_isInfix_of_noQuote h.noQuote_placeholder (hcs c hc)) hin

/-- A string that is not empty becomes a placeholder. -/
theorem protect_quoted (h : EndsQuoted names front text) (hmem : String.ofList text ∈ names)
    (hne : text ≠ []) : protect names (front ++ quoted text) =
      ([(placeholder 0, quoted text)], front ++ placeholder 0) :=
  h.foldl_hide (fun _ hc => hc) (mem_candidates (by decide) hmem hne)

end EndsQuoted

/-! ### Restoring -/

theorem restore_placeholder (literal : List Char) :
    restore [(placeholder 0, literal)] (placeholder 0) = literal := by
  obtain ⟨c, part, hpart⟩ : ∃ c part, placeholder 0 = c :: part := ⟨_, _, rfl⟩
  have hreplace : Text.replaceAll (c :: part) literal ([] ++ c :: part) = [] ++ literal :=
    Text.replaceAll_append_part (by simp) part literal
  rw [← hpart] at hreplace
  exact hreplace

theorem clear_iff {text : List Char} :
    Text.contains "__literal_".toList text = false ↔ ¬ "__literal_".toList <:+: text := by
  rw [← Text.contains_iff_isInfix, Bool.not_eq_true]

/-- A text in which no placeholder starts is restored as it is. -/
theorem restore_of_clear {text : List Char} (h : Text.contains "__literal_".toList text = false)
    (literal : List Char) : restore [(placeholder 0, literal)] text = text := by
  refine Text.replaceAll_of_not_contains literal ?_
  rw [← Bool.not_eq_true, Text.contains_iff_isInfix] at h ⊢
  intro hoccurs
  have hstarts : "__literal_".toList <+: placeholder 0 := by decide
  exact h (hstarts.isInfix.trans hoccurs)

end DocQuery.Mask
