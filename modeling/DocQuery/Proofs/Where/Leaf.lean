import DocQuery.Proofs.Where.Comparison
import Mathlib.Data.List.Induction

/-! A written comparison is one without brackets around it, whatever stands in its string. -/

namespace DocQuery.Where

open Condition (isDelimiter isDelimiter_of_class isDelimiter_of_isBlank isBalancedFrom balance
  bracketBalance_ofList)

/-! ### The names and strings of a comparison -/

def Path.names (p : Path) : List String :=
  String.ofList p.first.text :: p.rest.map fun n => String.ofList n.text

def Operand.strings : Operand → List String
  | integer _ _ _ _ _ => []
  | string text _ => [String.ofList text]

def Test.names (t : Test) : List String :=
  Statement.distinct (t.path.names ++ t.operand.strings)

theorem Name.mentioned (n : Name) :
    Statement.mentioned? n.token = some (String.ofList n.text) := by
  have hfree : n.token.isAnyKeyword Token.reserved = false := n.free
  show Token.identifier? n.token = _
  rw [Name.token] at hfree ⊢
  rw [Token.identifier?, if_neg (by simp [hfree])]

theorem Path.mentioned (p : Path) (gap : List Char) :
    Statement.mentions (p.lexemes gap) = p.names := by
  have hdot : Statement.mentioned? .dot = none := rfl
  have hrest : ∀ names : List Name,
      Statement.mentions (stepLexemes names) = names.map fun n => String.ofList n.text := by
    intro names
    induction names with
    | nil => rfl
    | cons n names ih =>
      show Statement.mentions (⟨[], ['.'], .dot⟩ :: ⟨[], n.text, n.token⟩ :: stepLexemes names) = _
      simp only [Statement.mentions_cons, hdot, n.mentioned, ih, List.map_cons]
  simp only [lexemes, Statement.mentions_cons, p.first.mentioned, hrest, names]

theorem Operand.mentioned (v : Operand) (gap : List Char) :
    Statement.mentions (v.lexemes gap) = v.strings := by
  cases v with
  | integer negative digits => cases negative <;> rfl
  | string text => rfl

theorem Test.mentioned (t : Test) (gap : List Char) :
    Statement.mentions (t.lexemes gap) = t.path.names ++ t.operand.strings := by
  have hcomparator : Statement.mentioned? t.comparator.token = none := by
    cases t.comparator <;> rfl
  simp only [lexemes, Statement.mentions_append, Path.mentioned, Statement.mentions_cons,
    hcomparator, Operand.mentioned]

theorem distinct_concat (names : List String) (name : String) :
    Statement.distinct (names ++ [name]) =
      if (Statement.distinct names).contains name then Statement.distinct names
      else Statement.distinct names ++ [name] := by
  rw [Statement.distinct, List.foldl_append]
  rfl

theorem mem_distinct {names : List String} {name : String} :
    name ∈ Statement.distinct names ↔ name ∈ names := by
  induction names using List.reverseRecOn generalizing name with
  | nil => rfl
  | append_singleton names last ih =>
    rw [distinct_concat]
    split
    · rename_i hlast
      have hmem : last ∈ names := ih.mp (by simpa using hlast)
      rw [ih]
      constructor
      · exact List.mem_append_left [last]
      · intro hn
        rcases List.mem_append.mp hn with hn | hn
        · exact hn
        · rwa [List.mem_singleton.mp hn]
    · rw [List.mem_append, ih, List.mem_append]

theorem exists_distinct_append (names others : List String) :
    ∃ more, Statement.distinct (names ++ others) = Statement.distinct names ++ more := by
  induction others using List.reverseRecOn with
  | nil => exact ⟨[], by simp⟩
  | append_singleton others name ih =>
    obtain ⟨more, hmore⟩ := ih
    rw [← List.append_assoc, distinct_concat, hmore]
    split
    · exact ⟨more, rfl⟩
    · exact ⟨more ++ [name], List.append_assoc _ _ _⟩

theorem nodup_distinct (names : List String) : (Statement.distinct names).Nodup := by
  induction names using List.reverseRecOn with
  | nil => exact List.nodup_nil
  | append_singleton names last ih =>
    rw [distinct_concat]
    split
    · exact ih
    · rename_i hnew
      refine List.nodup_append.mpr ⟨ih, by simp, fun a ha b hb => ?_⟩
      rw [List.mem_singleton.mp hb]
      rintro rfl
      exact hnew (by simpa using ha)

theorem find?_distinct (names : List String) (p : String → Bool) :
    (Statement.distinct names).find? p = names.find? p := by
  induction names using List.reverseRecOn with
  | nil => rfl
  | append_singleton names last ih =>
    rw [distinct_concat, List.find?_append]
    split
    · rename_i hold
      have hmem : last ∈ names := mem_distinct.mp (by simpa using hold)
      rw [ih]
      cases hfind : names.find? p with
      | some name => rfl
      | none =>
        have hnot := List.find?_eq_none.mp hfind last hmem
        simp [hnot]
    · rw [List.find?_append, ih]

/-! ### Brackets -/

theorem Name.forall_mem (n : Name) {P : Char → Prop}
    (hstart : ∀ c, Lexeme.isNameStart c = true → P c)
    (hfollow : ∀ c, Lexeme.isNameChar c = true → P c) : ∀ c ∈ n.text, P c := by
  intro c hc
  rcases List.mem_cons.mp hc with rfl | hc
  · exact hstart _ n.start
  · exact hfollow c (n.follow c hc)

theorem Path.forall_mem (p : Path) {P : Char → Prop}
    (hstart : ∀ c, Lexeme.isNameStart c = true → P c)
    (hfollow : ∀ c, Lexeme.isNameChar c = true → P c) (hdot : P '.') : ∀ c ∈ p.text, P c := by
  intro c hc
  rcases List.mem_append.mp hc with hc | hc
  · exact p.first.forall_mem hstart hfollow c hc
  · obtain ⟨n, _, hc⟩ := List.mem_flatMap.mp hc
    rcases List.mem_cons.mp hc with rfl | hc
    · exact hdot
    · exact n.forall_mem hstart hfollow c hc

theorem Name.not_delimiter (n : Name) : ∀ c ∈ n.text, isDelimiter c = false :=
  n.forall_mem (fun _ h => isDelimiter_of_class h (by decide))
    (fun _ h => isDelimiter_of_class h (by decide))

theorem Path.not_delimiter (p : Path) : ∀ c ∈ p.text, isDelimiter c = false :=
  p.forall_mem (fun _ h => isDelimiter_of_class h (by decide))
    (fun _ h => isDelimiter_of_class h (by decide)) (by decide)

theorem Comparator.not_delimiter (c : Comparator) : ∀ d ∈ c.text, isDelimiter d = false := by
  cases c with
  | notEq spelling => cases spelling <;> decide
  | _ => decide

def Test.front (t : Test) : List Char :=
  t.path.text ++ t.before.text ++ t.comparator.text ++ t.after.text

theorem Test.not_delimiter_front (t : Test) : ∀ c ∈ t.front, isDelimiter c = false := by
  intro c hc
  simp only [front, List.mem_append] at hc
  rcases hc with ((hc | hc) | hc) | hc
  · exact t.path.not_delimiter c hc
  · exact isDelimiter_of_isBlank (t.before.blank c hc)
  · exact t.comparator.not_delimiter c hc
  · exact isDelimiter_of_isBlank (t.after.blank c hc)

theorem Operand.forall_mem_integer {negative : Bool} {digits : List Char}
    (h : ∀ c ∈ digits, c.isDigit = true) {P : Char → Prop}
    (hdigit : ∀ c, c.isDigit = true → P c) (hminus : P '-') :
    ∀ c ∈ (if negative then '-' :: digits else digits), P c := by
  have hdigits : ∀ c ∈ digits, P c := fun c hc => hdigit c (h c hc)
  cases negative with
  | false => exact hdigits
  | true => exact List.forall_mem_cons.mpr ⟨hminus, hdigits⟩

theorem Operand.not_delimiter_integer {negative : Bool} {digits : List Char}
    (h : ∀ c ∈ digits, c.isDigit = true) :
    ∀ c ∈ (if negative then '-' :: digits else digits), isDelimiter c = false :=
  forall_mem_integer h (fun _ hc => isDelimiter_of_class hc (by decide)) (by decide)

theorem Path.forall_names (p : Path) {P : String → Prop}
    (h : ∀ n : Name, P (String.ofList n.text)) : ∀ name ∈ p.names, P name := by
  intro name hn
  rcases List.mem_cons.mp hn with rfl | hn
  · exact h p.first
  · obtain ⟨n, _, rfl⟩ := List.mem_map.mp hn
    exact h n

theorem Name.blank_notMem (n : Name) : ' ' ∉ n.text := by
  intro hmem
  refine n.forall_mem (P := (· ≠ ' ')) ?_ ?_ _ hmem rfl
  all_goals
    rintro d hd rfl
    exact absurd hd (by decide)

theorem Path.blank_notMem_names (p : Path) : ∀ name ∈ p.names, ' ' ∉ name.toList := by
  refine p.forall_names fun n => ?_
  rw [String.toList_ofList]
  exact n.blank_notMem

theorem Path.notMem_connectives (p : Path) : String.ofList p.text ∉ ["$and", "$or"] := by
  intro hmem
  have hhead : (String.ofList p.text).toList.head? = some p.first.first := by
    rw [String.toList_ofList]
    rfl
  have hdollar : (String.ofList p.text).toList.head? = some '$' := by
    rcases List.mem_cons.mp hmem with h | h
    · rw [h]
      rfl
    · rw [List.mem_singleton.mp h]
      rfl
  have hstart := p.first.start
  rw [Option.some.inj (hhead.symm.trans hdollar)] at hstart
  exact absurd hstart (by decide)

theorem Path.bracketBalance_names (p : Path) :
    ∀ name ∈ p.names, Condition.bracketBalance name = 0 := by
  refine p.forall_names fun n => ?_
  rw [bracketBalance_ofList, Condition.balance_of_not_delimiter n.not_delimiter]

theorem namesBalance_eq_zero {names : List String}
    (h : ∀ name ∈ names, Condition.bracketBalance name = 0) :
    Condition.namesBalance names = 0 := by
  induction names with
  | nil => rfl
  | cons name names ih =>
    rw [Condition.namesBalance, h name List.mem_cons_self,
      ih fun other ho => h other (List.mem_cons_of_mem name ho), Int.add_zero]

/-- One string is listed with names that have no brackets. If it is one of them, it has none
either. -/
theorem namesBalance_distinct_concat {names : List String}
    (h : ∀ name ∈ names, Condition.bracketBalance name = 0) (last : String) :
    Condition.namesBalance (Statement.distinct (names ++ [last])) =
      Condition.bracketBalance last := by
  have hnames : Condition.namesBalance (Statement.distinct names) = 0 :=
    namesBalance_eq_zero fun name hn => h name (mem_distinct.mp hn)
  rw [distinct_concat]
  split
  · rename_i hmem
    rw [hnames, h last (mem_distinct.mp (by simpa using hmem))]
  · rw [Condition.namesBalance_append, hnames, Int.zero_add, Condition.namesBalance,
      Condition.namesBalance, Int.add_zero]

theorem Test.namesBalance_names (t : Test) :
    Condition.namesBalance t.names = balance t.operand.text := by
  unfold names
  cases t.operand with
  | integer negative digits _ hdigits =>
    have hpath : Condition.namesBalance (Statement.distinct t.path.names) = 0 :=
      namesBalance_eq_zero fun name hn => t.path.bracketBalance_names name (mem_distinct.mp hn)
    rw [Operand.strings, List.append_nil, hpath, Operand.text,
      Condition.balance_of_not_delimiter (Operand.not_delimiter_integer hdigits)]
  | string text =>
    have htext : balance ('\'' :: (text ++ ['\''])) = balance text := by
      simp [balance]
    rw [Operand.strings, Operand.text, htext,
      namesBalance_distinct_concat t.path.bracketBalance_names, bracketBalance_ofList]

/-! ### The comparison without brackets around it -/

theorem isBalancedFrom_quoted {quote : Char} {text : List Char} (h : quote ∉ text) (depth : Nat)
    (rest : List Char) :
    isBalancedFrom depth (some quote) (text ++ quote :: rest) = isBalancedFrom depth none rest := by
  induction text with
  | nil => simp [isBalancedFrom]
  | cons c text ih =>
    have hc : c ≠ quote := by
      rintro rfl
      exact h List.mem_cons_self
    simpa [isBalancedFrom, hc] using ih fun hm => h (List.mem_cons_of_mem c hm)

theorem Operand.isBalancedFrom_text (v : Operand) : isBalancedFrom 0 none v.text = true := by
  cases v with
  | integer negative digits _ hdigits =>
    exact Condition.isBalancedFrom_of_not_delimiter (not_delimiter_integer hdigits)
  | string text hplain =>
    have hquote : '\'' ∉ text := fun hm => absurd (hplain _ hm).1 (by decide)
    exact isBalancedFrom_quoted hquote 0 []

theorem Operand.getLast?_text (v : Operand) :
    ∃ c, v.text.getLast? = some c ∧ isBlank c = false := by
  cases v with
  | integer negative digits hne hdigits =>
    have hlast := List.getLast?_eq_some_getLast hne
    refine ⟨digits.getLast hne, ?_, isBlank_of_isDigit (hdigits _ (List.getLast_mem hne))⟩
    cases negative with
    | false => exact hlast
    | true => simp [text, List.getLast?_cons, hlast]
  | string text =>
    refine ⟨'\'', ?_, by decide⟩
    rw [Operand.text, ← List.cons_append, List.getLast?_concat]

theorem Test.text_eq_front (t : Test) : t.text = t.front ++ t.operand.text := rfl

theorem Test.head?_text (t : Test) : t.text.head? = some t.path.first.first := rfl

theorem Test.tight (t : Test) : Text.Tight t.text := by
  obtain ⟨d, hlast, hd⟩ := t.operand.getLast?_text
  constructor
  · intro c hc
    rw [t.head?_text] at hc
    cases hc
    exact Lexeme.isBlank_of_isNameStart t.path.first.start
  · intro c hc
    rw [t.text_eq_front, List.getLast?_append, hlast] at hc
    cases hc
    exact hd

theorem Test.depth_eq_zero (t : Test) :
    (Condition.leaf (String.ofList t.text) t.names).depth = 0 := by
  rw [Condition.depth_leaf, t.namesBalance_names, t.text_eq_front, Condition.balance_append,
    Condition.balance_of_not_delimiter t.not_delimiter_front]
  omega

theorem Test.balanced (t : Test) : isBalancedFrom 0 none t.text = true := by
  have hfront := Condition.isBalancedFrom_of_not_delimiter t.not_delimiter_front
  rw [t.text_eq_front]
  exact (Condition.isBalancedFrom_append hfront 0 _).trans t.operand.isBalancedFrom_text

theorem Test.not_wrapped (t : Test) : Condition.isWrapped t.text = false := by
  have hne : t.path.first.first ≠ '(' := by
    intro h
    have hstart := t.path.first.start
    rw [h] at hstart
    exact absurd hstart (by decide)
  simp [Condition.isWrapped, t.head?_text, hne]

def Test.leaf (t : Test) : Condition.Leaf :=
  .ofText t.text t.names
    ⟨t.tight.trim_eq, List.cons_ne_nil _ _, t.depth_eq_zero, t.balanced, t.not_wrapped⟩

end DocQuery.Where
