import DocQuery.Proofs.Text.Classes
import DocQuery.Proofs.Text.Trim
import DocQuery.Value.Literal

/-! Which texts are numbers, and which are strings. -/

namespace DocQuery.Numeral

theorem splitSign_cons {c : Char} (h : c ∉ ['+', '-']) (text : List Char) :
    splitSign (c :: text) = (false, c :: text) := by
  rw [splitSign]
  · rintro tail heq
    exact h (by simp [(List.cons.inj heq).1])
  · rintro tail heq
    exact h (by simp [(List.cons.inj heq).1])

theorem read?_of_isNameStart {c : Char} (hc : Lexeme.isNameStart c = true) {text : List Char}
    (h : Text.Tight (c :: text)) : read? (c :: text) = none := by
  have hdigit : isAnyDigit c = false := Lexeme.isAnyDigit_of_isNameStart hc
  have hsign : c ∉ ['+', '-'] := notMem_of_class hc (by decide)
  have hdot : c ∉ ['.'] := notMem_of_class hc (by decide)
  rw [read?, h.trim_eq, splitSign_cons hsign]
  simp only [List.takeWhile_cons, List.dropWhile_cons, hdigit]
  split
  · rename_i heq
    exact absurd (List.cons.inj heq).1 (by simpa using hdot)
  · rfl

end DocQuery.Numeral

namespace DocQuery.Literal

def isNumberStart (c : Char) : Bool :=
  c.isDigit || ['+', '-', '.'].contains c

theorem toLower_notMem_of_isNumberStart {c : Char} (h : isNumberStart c = true) :
    c.toLower ∉ ['t', 'f', 'n'] := by
  have hc : c.toNat < 128 := by
    simp only [isNumberStart, Bool.or_eq_true, List.contains_iff_mem] at h
    rcases h with h | h
    · exact toNat_lt_of_isDigit h
    · have hall : ∀ d ∈ ['+', '-', '.'], d.toNat < 128 := by decide
      exact hall c h
  have hp : (!isNumberStart c || !(['t', 'f', 'n'].contains c.toLower)) = true :=
    of_ascii (p := fun c => !isNumberStart c || !(['t', 'f', 'n'].contains c.toLower))
      (by decide +kernel) hc
  rw [h] at hp
  simpa using hp

theorem scalar?_of_isNumberStart {c : Char} (hc : isNumberStart c = true) (text : List Char) :
    scalar? (c :: text) = number? (c :: text) := by
  have hquote : isQuoted (c :: text) = false := by
    have hnot : c ∉ [singleQuote, doubleQuote, backQuote] := notMem_of_class hc (by decide)
    simpa [isQuoted, isQuote, and_assoc] using hnot
  have hlower : ∀ word : String, ['t', 'f', 'n'].any (word.toList.head? == some ·) = true →
      Text.lower (c :: text) ≠ word.toList := by
    intro word hw heq
    rw [← heq] at hw
    obtain ⟨d, hd, he⟩ := List.any_eq_true.mp hw
    have hcd : c.toLower = d := by simpa [Text.lower] using he
    exact toLower_notMem_of_isNumberStart hc (hcd ▸ hd)
  rw [scalar?, if_neg (by simp [hquote])]
  simp only [if_neg (hlower "true" (by decide)), if_neg (hlower "false" (by decide)),
    if_neg (hlower "null" (by decide))]

theorem unquoted_quoted {q : Char} (hq : isQuote q = true) (text : List Char) :
    unquoted (q :: (text ++ [q])) = text := by
  have hquoted : isQuoted (q :: (text ++ [q])) = true := hq
  rw [unquoted, if_pos hquoted]
  simp

theorem scalar?_quoted {q : Char} (hq : isQuote q = true) (text : List Char) :
    scalar? (q :: (text ++ [q])) = some (.string (String.ofList text)) := by
  have hquoted : isQuoted (q :: (text ++ [q])) = true := hq
  rw [scalar?, if_pos hquoted, unquoted_quoted hq]

end DocQuery.Literal
