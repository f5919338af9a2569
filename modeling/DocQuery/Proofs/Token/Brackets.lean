import DocQuery.Proofs.Condition.Brackets
import DocQuery.Proofs.Token.Lexing
import DocQuery.Proofs.Statement.Items

/-! Brackets in the text of a lexeme are bracket tokens or stand in what the token mentions: decoding
a quoted text changes none, and no other token has any. -/

namespace DocQuery

open Condition (balance balance_cons balance_of_not_delimiter bracketBalance_ofList
  isDelimiter_of_class namesBalance)

def Token.nesting : Token → Int
  | lparen => 1
  | rparen => -1
  | _ => 0

namespace Lexeme

/-! ### Quoted texts -/

theorem consDecoded_eq_ok {c : Char} {k n : Nat} {value : List Char}
    {read : Except LexFault (List Char × Nat)} (h : consDecoded c k read = .ok (value, n)) :
    ∃ tail m, read = .ok (tail, m) ∧ value = c :: tail ∧ n = m + k := by
  cases read with
  | error fault => cases h
  | ok result =>
    cases h
    exact ⟨_, _, rfl, rfl, rfl⟩

theorem balance_unescape (c : Char) : balance [unescape c] = balance [c] := by
  unfold unescape
  split
  · subst_vars; rfl
  split
  · subst_vars; rfl
  split
  · subst_vars; rfl
  split
  · subst_vars; rfl
  · rfl

theorem balance_of_readQuoted {quote : Char} {escapes : Bool} {text value : List Char} {n : Nat}
    (hquote : balance [quote] = 0) (h : readQuoted quote escapes text = .ok (value, n)) :
    balance (text.take n) = balance value := by
  fun_induction readQuoted quote escapes text generalizing value n with
  | case1 => cases h
  | case2 =>
    cases h
    simpa using hquote
  | case3 => cases h
  | case4 => cases h
  | case5 text ih =>
    obtain ⟨tail, m, hread, rfl, rfl⟩ := consDecoded_eq_ok h
    have htail := ih hread
    rw [List.take_succ_cons, List.take_succ_cons, balance_cons, balance_cons _ (text.take m),
      balance_cons _ tail]
    omega
  | case6 d text =>
    cases h
    simpa using hquote
  | case7 c d text hc hescape ih =>
    obtain ⟨tail, m, hread, rfl, rfl⟩ := consDecoded_eq_ok h
    have htail := ih hread
    have hslash : balance ['\\'] = 0 := rfl
    rw [List.take_succ_cons, List.take_succ_cons, balance_cons, balance_cons _ (text.take m),
      balance_cons _ tail, balance_unescape, hescape.1]
    omega
  | case8 c d text hc hescape ih =>
    obtain ⟨tail, m, hread, rfl, rfl⟩ := consDecoded_eq_ok h
    have htail := ih hread
    rw [List.take_succ_cons, balance_cons, balance_cons _ tail]
    omega

/-! ### Numbers -/

def isNumberChar (c : Char) : Bool :=
  c.isDigit || ['.', 'e', 'E', '+', '-'].contains c

theorem isNumberChar_digits (text : List Char) :
    ∀ c ∈ text.take (digitsLength text), isNumberChar c = true := by
  intro c hc
  have hprefix := List.prefix_iff_eq_take.mp (List.takeWhile_prefix Char.isDigit (l := text))
  rw [digitsLength, ← hprefix] at hc
  simp [isNumberChar, List.all_eq_true.mp List.all_takeWhile c hc]

theorem isNumberChar_fraction (text : List Char) :
    ∀ c ∈ text.take (fractionLength text), isNumberChar c = true := by
  intro c hc
  unfold fractionLength at hc
  split at hc
  · rename_i digits
    split at hc
    · simp at hc
    · rcases List.mem_cons.mp hc with rfl | hc
      · decide
      · exact isNumberChar_digits digits c hc
  · simp at hc

theorem isNumberChar_signed {e : Char} {text : List Char} {sign : Nat}
    (he : isNumberChar e = true) (hsign : ∀ c ∈ text.take sign, isNumberChar c = true) :
    ∀ c ∈ (e :: text).take (if digitsLength (text.drop sign) = 0 then 0
      else digitsLength (text.drop sign) + sign + 1), isNumberChar c = true := by
  intro c hc
  split at hc
  · simp at hc
  · rw [List.take_succ_cons, Nat.add_comm, List.take_add] at hc
    rcases List.mem_cons.mp hc with rfl | hc
    · exact he
    rcases List.mem_append.mp hc with hc | hc
    · exact hsign c hc
    · exact isNumberChar_digits _ c hc

theorem isNumberChar_exponent (text : List Char) :
    ∀ c ∈ text.take (exponentLength text), isNumberChar c = true := by
  intro c hc
  cases text with
  | nil => simp at hc
  | cons e text =>
    simp only [exponentLength] at hc
    split at hc
    · rename_i he
      refine isNumberChar_signed (by rcases he with rfl | rfl <;> decide) ?_ c hc
      intro d hd
      cases text with
      | nil => simp at hd
      | cons sign text =>
        simp only at hd
        split at hd
        · rename_i hsign
          obtain rfl : d = sign := by simpa using hd
          rcases hsign with rfl | rfl <;> decide
        · simp at hd
    · simp at hc

theorem isNumberChar_number (text : List Char) :
    ∀ c ∈ text.take (numberLength text), isNumberChar c = true := by
  intro c hc
  simp only [numberLength, List.take_add, List.mem_append] at hc
  rcases hc with (hc | hc) | hc
  · exact isNumberChar_digits _ c hc
  · exact isNumberChar_fraction _ c hc
  · exact isNumberChar_exponent _ c hc

theorem balance_number (text : List Char) : balance (text.take (numberLength text)) = 0 :=
  balance_of_not_delimiter fun c hc =>
    isDelimiter_of_class (isNumberChar_number text c hc) (by decide)

theorem balance_word {c : Char} (hc : isNameStart c = true) {text : List Char}
    (htext : ∀ d ∈ text, isNameChar d = true) : balance (c :: text) = 0 := by
  apply balance_of_not_delimiter
  intro d hd
  rcases List.mem_cons.mp hd with rfl | hd
  · exact isDelimiter_of_class hc (by decide)
  · exact isDelimiter_of_class (htext d hd) (by decide)

/-! ### Lexemes -/

/-- The brackets in the text of a token: its own, and those in what it mentions. -/
def tokenBalance (token : Token) : Int :=
  token.nesting + namesBalance (Statement.mentioned? token).toList

theorem balance_of_quotedToken {quote : Char} {escapes : Bool} {make : String → Token}
    {text : List Char} {token : Token} {n : Nat} (hquote : balance [quote] = 0)
    (hmake : ∀ value, tokenBalance (make (String.ofList value)) = balance value)
    (h : quotedToken quote escapes make text = .ok (token, n)) :
    balance (quote :: text.take n) = tokenBalance token := by
  obtain ⟨⟨value, length⟩, hread, h⟩ := Statement.exists_of_bind_eq_ok h
  cases h
  rw [balance_cons, hquote, balance_of_readQuoted hquote hread, hmake, Int.zero_add]

theorem tokenBalance_string (value : List Char) (quote : Quote) :
    tokenBalance (.string (String.ofList value) quote) = balance value := by
  simp [tokenBalance, Token.nesting, Statement.mentioned?, namesBalance, bracketBalance_ofList]

theorem tokenBalance_quotedName (value : List Char) :
    tokenBalance (.quotedName (String.ofList value)) = balance value := by
  simp [tokenBalance, Token.nesting, Statement.mentioned?, Token.identifier?, namesBalance,
    bracketBalance_ofList]

theorem tokenBalance_word {text : List Char} (h : balance text = 0) :
    tokenBalance (.word (String.ofList text)) = 0 := by
  simp only [tokenBalance, Token.nesting, Statement.mentioned?, Token.identifier?]
  split
  · rfl
  · simp [namesBalance, bracketBalance_ofList, h]

theorem take_numberLength_pred {c : Char} (hc : c.isDigit = true) (text : List Char) :
    c :: text.take (numberLength (c :: text) - 1) = (c :: text).take (numberLength (c :: text)) := by
  have hpos : 1 ≤ numberLength (c :: text) := by
    simp only [numberLength, digitsLength, List.takeWhile_cons_of_pos hc, List.length_cons]
    omega
  obtain ⟨n, hn⟩ := Nat.exists_eq_add_of_le' hpos
  rw [hn, Nat.add_sub_cancel, List.take_succ_cons]

theorem balance_of_next {c : Char} {text : List Char} {token : Token} {n : Nat}
    (h : next c text = .ok (token, n)) : balance (c :: text.take n) = tokenBalance token := by
  fun_cases next c text
  case case5 hdigits =>
    rw [next, if_pos hdigits] at h
    cases h
    rfl
  case case6 hdigits _ =>
    rw [next, if_neg hdigits] at h
    cases h
    rw [balance_cons, balance_number]
    rfl
  case case25 =>
    simp only [next] at h
    exact balance_of_quotedToken rfl (tokenBalance_string · .single) h
  case case26 =>
    simp only [next] at h
    exact balance_of_quotedToken rfl (tokenBalance_string · .double) h
  case case27 =>
    simp only [next] at h
    exact balance_of_quotedToken rfl tokenBalance_quotedName h
  case case28 hdigit _ =>
    rw [next_of_isDigit hdigit] at h
    cases h
    rw [take_numberLength_pred hdigit, balance_number]
    rfl
  case case29 hstart _ =>
    rw [next_of_isNameStart hstart] at h
    cases h
    have hname := List.prefix_iff_eq_take.mp (List.takeWhile_prefix isNameChar (l := text))
    have hbalance := balance_word hstart (List.all_eq_true.mp (List.all_takeWhile (l := text)))
    rw [← hname, hbalance, tokenBalance_word hbalance]
  case case30 hdigit hstart => simp_all [next]
  all_goals
    simp only [next] at h
    cases h <;> rfl

theorem balance_text_of_all {source : List Char} {ls : List Lexeme} (h : all source = .ok ls) :
    ∀ l ∈ ls, balance l.text = tokenBalance l.token :=
  forall_mem_of_all (fun _ => rfl) (fun _ hnext => balance_of_next hnext) h

end Lexeme

end DocQuery
