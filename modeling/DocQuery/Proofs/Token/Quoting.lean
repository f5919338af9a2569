import DocQuery.Proofs.Token.Lexing

/-! Writing quoted texts. What is written between delimiters is read back, whatever it is, since the
delimiter and the backslash are doubled where they have a meaning of their own. -/

namespace DocQuery.Lexeme

variable {c quote : Char} {rest : List Char}

/-! ### Reading character by character -/

theorem readQuoted_close (h : ∀ d ∈ rest.head?, d ≠ quote) (escapes : Bool) :
    readQuoted quote escapes (quote :: rest) = .ok ([], 1) := by
  cases rest with
  | nil => simp [readQuoted]
  | cons d rest => simp [readQuoted, h d rfl]

theorem readQuoted_doubled (quote : Char) (escapes : Bool) (text : List Char) :
    readQuoted quote escapes (quote :: quote :: text) =
      consDecoded quote 2 (readQuoted quote escapes text) := by
  simp [readQuoted]

theorem readQuoted_escaped (h : quote ≠ '\\') (c : Char) (text : List Char) :
    readQuoted quote true ('\\' :: c :: text) =
      consDecoded (unescape c) 2 (readQuoted quote true text) := by
  simp [readQuoted, h.symm]

theorem readQuoted_plain {escapes : Bool} (hc : c ≠ quote)
    (hescape : ¬ (c = '\\' ∧ escapes = true)) (text : List Char) :
    readQuoted quote escapes (c :: text) = consDecoded c 1 (readQuoted quote escapes text) := by
  cases text with
  | nil => simp [readQuoted, hc, hescape, consDecoded]
  | cons d text => simp [readQuoted, hc, hescape]

theorem Reads.splitGap_eq {text : List Char} {token : Token} (h : Reads text token rest) :
    splitGap .blanks (text ++ rest) = ([], text ++ rest) := by
  obtain ⟨hblank, hcomment, -⟩ := h
  have hgap : ∀ c ∈ ([] : List Char), isBlank c = true := by simp
  exact splitGap_append hgap hblank hcomment

/-! ### Delimiters -/

inductive Delimiter where
  | string (quote : Quote)
  | name

namespace Delimiter

def char : Delimiter → Char
  | string quote => quote.char
  | name => '\x60'

def escapes : Delimiter → Bool
  | string _ => true
  | name => false

def token : Delimiter → String → Token
  | string quote, value => .string value quote
  | name, value => .quotedName value

/-- The delimiter is doubled, and so is the backslash where it is an escape. -/
def spell (d : Delimiter) (c : Char) : List Char :=
  if c = d.char ∨ (c = '\\' ∧ d.escapes = true) then [c, c] else [c]

def body (d : Delimiter) (value : String) : List Char :=
  value.toList.flatMap d.spell

def written (d : Delimiter) (value : String) : List Char :=
  d.char :: (d.body value ++ [d.char])

theorem char_ne_backslash (d : Delimiter) : d.char ≠ '\\' := by
  rcases d with (_ | _) | _ <;> decide

theorem isBlank_char (d : Delimiter) : isBlank d.char = false := by
  rcases d with (_ | _) | _ <;> decide

theorem char_notMem (d : Delimiter) : d.char ∉ ['-', '/'] := by
  rcases d with (_ | _) | _ <;> decide

theorem readQuoted_spell (d : Delimiter) (c : Char) (text : List Char) :
    readQuoted d.char d.escapes (d.spell c ++ text) =
      consDecoded c (d.spell c).length (readQuoted d.char d.escapes text) := by
  by_cases hquote : c = d.char
  · have hspell : d.spell c = [c, c] := if_pos (.inl hquote)
    rw [hspell, hquote]
    exact readQuoted_doubled d.char d.escapes text
  · by_cases hescape : c = '\\' ∧ d.escapes = true
    · have hspell : d.spell c = [c, c] := if_pos (.inr hescape)
      rw [hspell, hescape.1, hescape.2]
      exact readQuoted_escaped d.char_ne_backslash '\\' text
    · have hspell : d.spell c = [c] := if_neg (not_or.mpr ⟨hquote, hescape⟩)
      rw [hspell]
      exact readQuoted_plain hquote hescape text

theorem readQuoted_flatMap_spell (d : Delimiter) (value : List Char)
    (hrest : ∀ c ∈ rest.head?, c ≠ d.char) :
    readQuoted d.char d.escapes (value.flatMap d.spell ++ d.char :: rest) =
      .ok (value, (value.flatMap d.spell).length + 1) := by
  induction value with
  | nil => exact readQuoted_close hrest d.escapes
  | cons c value ih =>
    rw [List.flatMap_cons, List.append_assoc, readQuoted_spell, ih, consDecoded, List.length_append]
    congr 2
    omega

theorem next_char (d : Delimiter) (text : List Char) :
    next d.char text = quotedToken d.char d.escapes d.token text := by
  rcases d with (_ | _) | _ <;> rfl

theorem next_body (d : Delimiter) (value : String) (hrest : ∀ c ∈ rest.head?, c ≠ d.char) :
    next d.char (d.body value ++ d.char :: rest) =
      .ok (d.token value, (d.body value).length + 1) := by
  rw [next_char, quotedToken, body, readQuoted_flatMap_spell d value.toList hrest]
  show Except.ok (d.token (String.ofList value.toList), _) = _
  rw [String.ofList_toList]

/-- A written text is read back as one token, up to and with its closing delimiter. -/
theorem next_written (d : Delimiter) (value : String) {rest : List Char}
    (hrest : rest.head? ≠ some d.char) :
    splitGap .blanks (d.written value ++ rest) = ([], d.written value ++ rest) ∧
      next d.char (d.body value ++ d.char :: rest) =
        .ok (d.token value, (d.body value).length + 1) ∧
      (d.body value ++ d.char :: rest).drop ((d.body value).length + 1) = rest ∧
      all (d.written value ++ rest) =
        (all rest).map (⟨[], d.written value, d.token value⟩ :: ·) := by
  have hhead : ∀ c ∈ rest.head?, c ≠ d.char := fun c hc heq => hrest (heq ▸ hc)
  have hgap : ∀ c ∈ ([] : List Char), isBlank c = true := by simp
  have hnext := d.next_body value hhead
  have hreads : Reads (d.written value) (d.token value) rest := by
    refine .of_notMem d.isBlank_char d.char_notMem ?_
    simpa using hnext
  exact ⟨hreads.splitGap_eq, hnext, by simp, all_append hgap hreads⟩

/-- A string of quotes and backslashes in front of a comma. -/
theorem next_written_marks :
    let d := Delimiter.string .single
    let value := "\\'\\"
    [','].head? ≠ some d.char ∧ d.body value = "\\\\''\\\\".toList ∧
      next '\'' (d.body value ++ ['\'', ',']) = .ok (.string value .single, 7) ∧
      all (d.written value ++ [',']) =
        (all [',']).map (⟨[], d.written value, .string value .single⟩ :: ·) := by
  intro d value
  have hrest : [','].head? ≠ some d.char := by decide
  have hbody : d.body value = "\\\\''\\\\".toList := by decide
  obtain ⟨-, hnext, -, hall⟩ := next_written d value hrest
  have hlength : (d.body value).length + 1 = 7 := by decide
  rw [hlength] at hnext
  exact ⟨hrest, hbody, hnext, hall⟩

end Delimiter

end DocQuery.Lexeme
