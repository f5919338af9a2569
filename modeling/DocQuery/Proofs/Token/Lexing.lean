import DocQuery.Proofs.Text.Classes
import DocQuery.Proofs.Text.Trim

/-! Reading lexemes back from their text. A run of lexemes is read as written where each of its
tokens ends in front of what follows it. -/

namespace DocQuery.Lexeme

def source (ls : List Lexeme) : List Char :=
  ls.flatMap fun l => l.gap ++ l.text

@[simp] theorem source_nil : source [] = [] := rfl

@[simp] theorem source_cons (l : Lexeme) (ls : List Lexeme) :
    source (l :: ls) = l.gap ++ l.text ++ source ls := rfl

@[simp] theorem source_append (ls ms : List Lexeme) :
    source (ls ++ ms) = source ls ++ source ms :=
  List.flatMap_append

/-- In front of `rest`, the text is read as one token. -/
inductive Reads : List Char → Token → List Char → Prop where
  | intro {c : Char} {text rest : List Char} {token : Token} (not_blank : isBlank c = false)
    (not_comment : ∀ d ∈ (text ++ rest).head?, ¬ (c = '-' ∧ d = '-') ∧ ¬ (c = '/' ∧ d = '*'))
    (next_eq : next c (text ++ rest) = .ok (token, text.length)) : Reads (c :: text) token rest

theorem Reads.of_notMem {c : Char} {text rest : List Char} {token : Token}
    (hblank : isBlank c = false) (hc : c ∉ ['-', '/'])
    (hnext : next c (text ++ rest) = .ok (token, text.length)) : Reads (c :: text) token rest := by
  refine .intro hblank (fun d _ => ⟨?_, ?_⟩) hnext
  · rintro ⟨rfl, _⟩
    exact hc (by simp)
  · rintro ⟨rfl, _⟩
    exact hc (by simp)

/-- In front of `rest`, the lexemes are read one after the other. -/
def Scans : List Lexeme → List Char → Prop
  | [], _ => True
  | l :: ls, rest =>
    (∀ c ∈ l.gap, isBlank c = true) ∧ Reads l.text l.token (source ls ++ rest) ∧ Scans ls rest

theorem scans_append {ls ms : List Lexeme} {rest : List Char} (hl : Scans ls (source ms ++ rest))
    (hm : Scans ms rest) : Scans (ls ++ ms) rest := by
  induction ls with
  | nil => exact hm
  | cons l ls ih =>
    obtain ⟨hgap, hread, hl⟩ := hl
    refine ⟨hgap, ?_, ih hl⟩
    show Reads l.text l.token (source (ls ++ ms) ++ rest)
    rwa [source_append, List.append_assoc]

theorem splitGap_append {gap text : List Char} {c : Char} (hgap : ∀ d ∈ gap, isBlank d = true)
    (hc : isBlank c = false)
    (hcomment : ∀ d ∈ text.head?, ¬ (c = '-' ∧ d = '-') ∧ ¬ (c = '/' ∧ d = '*')) :
    splitGap .blanks (gap ++ c :: text) = (gap, c :: text) := by
  induction gap with
  | nil =>
    cases text with
    | nil => simp [splitGap, hc]
    | cons d text =>
      obtain ⟨hline, hblock⟩ := hcomment d rfl
      simp [splitGap, hc, hline, hblock]
  | cons g gap ih =>
    have hg : isBlank g = true := hgap g List.mem_cons_self
    have hsplit := ih fun d hd => hgap d (List.mem_cons_of_mem g hd)
    -- The split looks at two characters at once, for the start of a comment.
    obtain ⟨d, tail, htail⟩ : ∃ d tail, gap ++ c :: text = d :: tail :=
      List.exists_cons_of_ne_nil (by simp)
    rw [htail] at hsplit
    simp [htail, splitGap, hg, hsplit]

theorem all_append {gap text rest : List Char} {token : Token}
    (hgap : ∀ c ∈ gap, isBlank c = true) (hread : Reads text token rest) :
    all (gap ++ text ++ rest) = (all rest).map (⟨gap, text, token⟩ :: ·) := by
  obtain ⟨hblank, hcomment, hnext⟩ := hread
  rename_i c text
  have hsplit : splitGap .blanks (gap ++ (c :: text) ++ rest) = (gap, c :: (text ++ rest)) := by
    rw [List.append_assoc, List.cons_append]
    exact splitGap_append hgap hblank hcomment
  rw [all]
  split
  · rename_i heq
    rw [hsplit] at heq
    cases heq
  · rename_i heq
    rw [hsplit] at heq
    cases heq
    rw [hnext]
    simp only [List.drop_left, List.take_left]
    cases all rest <;> rfl

theorem all_nil : all [] = .ok [⟨[], [], .eof⟩] := by
  rw [all]
  rfl

theorem all_source {ls : List Lexeme} {rest : List Char} (h : Scans ls rest) :
    all (source ls ++ rest) = (all rest).map (ls ++ ·) := by
  induction ls with
  | nil =>
    rw [source_nil, List.nil_append]
    cases all rest <;> rfl
  | cons l ls ih =>
    obtain ⟨hgap, hread, hl⟩ := h
    rw [source_cons, List.append_assoc, all_append hgap hread, ih hl]
    cases all rest <;> rfl

/-! ### Words, numbers and strings -/

/-- A value or a name ends here: at a blank, a closing bracket, a comma, or the end of the text. -/
def Stops (rest : List Char) : Prop :=
  ∀ c ∈ rest.head?, isBlank c = true ∨ c ∈ [')', ',']

theorem Stops.not_class {rest : List Char} (h : Stops rest) {p : Char → Bool}
    (hblank : ∀ c, p c = true → isBlank c = false) (hmark : [')', ','].any p = false) :
    ∀ c ∈ rest.head?, p c = false := by
  intro c hc
  rw [← Bool.not_eq_true]
  intro hp
  rcases h c hc with hb | hm
  · rw [hblank c hp] at hb
    cases hb
  · exact notMem_of_class hp hmark hm

theorem Stops.head_ne {rest : List Char} (h : Stops rest) {d : Char} (hd : isBlank d = false)
    (hmark : d ∉ [')', ',']) : ∀ c ∈ rest.head?, c ≠ d := by
  rintro c hc rfl
  rcases h c hc with hb | hm
  · rw [hd] at hb
    cases hb
  · exact hmark hm

theorem takeWhile_append_of_head {p : Char → Bool} {text rest : List Char}
    (htext : ∀ c ∈ text, p c = true) (hrest : ∀ c ∈ rest.head?, p c = false) :
    (text ++ rest).takeWhile p = text := by
  rw [List.takeWhile_append_of_pos htext]
  cases rest with
  | nil => rw [List.takeWhile_nil, List.append_nil]
  | cons c rest => rw [List.takeWhile_cons_of_neg (by simp [hrest c rfl]), List.append_nil]

theorem next_of_isNameStart {c : Char} (h : isNameStart c = true) (text : List Char) :
    next c text = .ok (.word (String.ofList (c :: text.takeWhile isNameChar)),
      (text.takeWhile isNameChar).length) := by
  unfold next
  split
  case h_20 => rw [isDigit_of_isNameStart h, if_neg (by decide), if_pos h]
  all_goals exact absurd h (by decide)

theorem next_of_isDigit {c : Char} (h : c.isDigit = true) (text : List Char) :
    next c text = .ok (.number (String.ofList ((c :: text).take (numberLength (c :: text)))),
      numberLength (c :: text) - 1) := by
  unfold next
  split
  case h_20 => rw [if_pos h]
  all_goals exact absurd h (by decide)

theorem reads_word {c : Char} {text rest : List Char} (hc : isNameStart c = true)
    (htext : ∀ d ∈ text, isNameChar d = true) (hrest : ∀ d ∈ rest.head?, isNameChar d = false) :
    Reads (c :: text) (.word (String.ofList (c :: text))) rest := by
  refine .of_notMem (isBlank_of_isNameStart hc) (notMem_of_class hc (by decide)) ?_
  rw [next_of_isNameStart hc, takeWhile_append_of_head htext hrest]

theorem reads_letters {text rest : List Char} (hne : text ≠ [])
    (htext : ∀ c ∈ text, isLetter c = true) (hrest : Stops rest) :
    Reads text (.word (String.ofList text)) rest := by
  obtain ⟨c, tail, rfl⟩ := List.exists_cons_of_ne_nil hne
  refine reads_word ?_ ?_ (hrest.not_class (fun _ => isBlank_of_isNameChar) (by decide))
  · simp [isNameStart, htext c List.mem_cons_self]
  · intro d hd
    simp [isNameChar, htext d (List.mem_cons_of_mem c hd)]

theorem digitsLength_append {digits rest : List Char} (hdigits : ∀ c ∈ digits, c.isDigit = true)
    (hrest : ∀ c ∈ rest.head?, c.isDigit = false) :
    digitsLength (digits ++ rest) = digits.length := by
  rw [digitsLength, takeWhile_append_of_head hdigits hrest]

theorem fractionLength_of_head {rest : List Char} (h : ∀ c ∈ rest.head?, c ≠ '.') :
    fractionLength rest = 0 := by
  unfold fractionLength
  split
  · exact absurd rfl (h '.' rfl)
  · rfl

theorem exponentLength_of_head {rest : List Char} (h : ∀ c ∈ rest.head?, c ≠ 'e' ∧ c ≠ 'E') :
    exponentLength rest = 0 := by
  cases rest with
  | nil => rfl
  | cons c rest => simp [exponentLength, h c rfl]

theorem Stops.not_exponent {rest : List Char} (h : Stops rest) :
    ∀ c ∈ rest.head?, c ≠ 'e' ∧ c ≠ 'E' := fun c hc =>
  ⟨h.head_ne (by decide) (by decide) c hc, h.head_ne (by decide) (by decide) c hc⟩

theorem Stops.not_digit {rest : List Char} (h : Stops rest) :
    ∀ c ∈ rest.head?, c.isDigit = false :=
  h.not_class (fun _ => isBlank_of_isDigit) (by decide)

theorem numberLength_append {digits rest : List Char} (hdigits : ∀ c ∈ digits, c.isDigit = true)
    (hrest : Stops rest) : numberLength (digits ++ rest) = digits.length := by
  have hfraction : fractionLength rest = 0 :=
    fractionLength_of_head (hrest.head_ne (by decide) (by decide))
  simp only [numberLength, digitsLength_append hdigits hrest.not_digit, List.drop_left, hfraction,
    Nat.add_zero, exponentLength_of_head hrest.not_exponent]

theorem reads_number {digits rest : List Char} (hne : digits ≠ [])
    (hdigits : ∀ c ∈ digits, c.isDigit = true) (hrest : Stops rest) :
    Reads digits (.number (String.ofList digits)) rest := by
  obtain ⟨c, text, rfl⟩ := List.exists_cons_of_ne_nil hne
  have hc : c.isDigit = true := hdigits c List.mem_cons_self
  have hlength := numberLength_append hdigits hrest
  refine .of_notMem (isBlank_of_isDigit hc) (notMem_of_class hc (by decide)) ?_
  rw [next_of_isDigit hc, ← List.cons_append, hlength, List.take_left]
  rfl

/-- Between its quotes, the text spells the value: a doubled quote stands for one, a backslash with
the next character for one character, and every other character for itself. -/
inductive Spells (quote : Char) : List Char → List Char → Prop where
  | nil : Spells quote [] []
  | doubled {raw value : List Char} (h : Spells quote raw value) :
    Spells quote (quote :: quote :: raw) (quote :: value)
  | escaped (c : Char) {raw value : List Char} (h : Spells quote raw value) :
    Spells quote ('\\' :: c :: raw) (unescape c :: value)
  | plain {c : Char} (not_quote : c ≠ quote) (not_slash : c ≠ '\\') {raw value : List Char}
    (h : Spells quote raw value) : Spells quote (c :: raw) (c :: value)

theorem spells_self {quote : Char} {text : List Char}
    (h : ∀ c ∈ text, c ≠ quote ∧ c ≠ '\\') : Spells quote text text := by
  induction text with
  | nil => exact .nil
  | cons c text ih =>
    obtain ⟨hquote, hslash⟩ := h c List.mem_cons_self
    exact .plain hquote hslash (ih fun d hd => h d (List.mem_cons_of_mem c hd))

theorem Spells.readQuoted_append {quote : Char} (hslash : quote ≠ '\\') {raw value : List Char}
    (h : Spells quote raw value) {rest : List Char} (hrest : ∀ c ∈ rest.head?, c ≠ quote) :
    readQuoted quote true (raw ++ quote :: rest) = .ok (value, raw.length + 1) := by
  induction h with
  | nil =>
    cases rest with
    | nil => simp [readQuoted]
    | cons d rest => simp [readQuoted, hrest d rfl]
  | doubled h ih => simp [readQuoted, ih, consDecoded]
  | escaped c h ih => simp [readQuoted, hslash.symm, ih, consDecoded]
  | @plain c hquote hc raw value h ih =>
    obtain ⟨d, tail, htail⟩ : ∃ d tail, raw ++ quote :: rest = d :: tail :=
      List.exists_cons_of_ne_nil (by simp)
    rw [htail] at ih
    simp [htail, readQuoted, hquote, hc, ih, consDecoded]

theorem Spells.reads {quote : Quote} {raw value : List Char} (h : Spells quote.char raw value)
    {rest : List Char} (hrest : ∀ c ∈ rest.head?, c ≠ quote.char) :
    Reads (quote.char :: (raw ++ [quote.char])) (.string (String.ofList value) quote) rest := by
  have hread := h.readQuoted_append (by cases quote <;> decide) hrest
  have hnext : next quote.char (raw ++ quote.char :: rest) =
      quotedToken quote.char true (.string · quote) (raw ++ quote.char :: rest) := by
    cases quote <;> rfl
  refine .of_notMem (by cases quote <;> decide) (by cases quote <;> decide) ?_
  rw [List.append_assoc, List.singleton_append, hnext, quotedToken, hread, List.length_append]
  rfl

theorem reads_string (quote : Quote) {text rest : List Char}
    (htext : ∀ c ∈ text, c ≠ quote.char ∧ c ≠ '\\') (hrest : ∀ c ∈ rest.head?, c ≠ quote.char) :
    Reads (quote.char :: (text ++ [quote.char])) (.string (String.ofList text) quote) rest :=
  (spells_self htext).reads hrest

end DocQuery.Lexeme
