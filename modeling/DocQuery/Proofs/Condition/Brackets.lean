import DocQuery.Condition.Reduction
import DocQuery.Proofs.Text.Classes
import DocQuery.Proofs.Text.Trim

/-! Brackets in the text of a comparison: how many it leaves open, and when a pair of brackets
around it is recognised as one that encloses all of it. -/

namespace DocQuery.Condition

/-- From the given depth and open quote on, the text closes every quote and every bracket, and no
bracket that it has not opened. Brackets inside quotes do not count. -/
def isBalancedFrom (depth : Nat) (quote : Option Char) : List Char → Bool
  | [] => depth == 0 && quote.isNone
  | c :: text =>
    match quote with
    | some q => isBalancedFrom depth (if c = q then none else some q) text
    | none =>
      if Literal.isQuote c then isBalancedFrom depth (some c) text
      else if c = '(' then isBalancedFrom (depth + 1) none text
      else if c = ')' then depth != 0 && isBalancedFrom (depth - 1) none text
      else isBalancedFrom depth none text

theorem isBalancedFrom_append {depth : Nat} {quote : Option Char} {text : List Char}
    (h : isBalancedFrom depth quote text = true) (outer : Nat) (rest : List Char) :
    isBalancedFrom (outer + depth) quote (text ++ rest) = isBalancedFrom outer none rest := by
  fun_induction isBalancedFrom depth quote text with
  | case1 depth quote =>
    simp only [Bool.and_eq_true, beq_iff_eq, Option.isNone_iff_eq_none] at h
    rw [h.1, h.2]
    rfl
  | case2 depth c text q ih =>
    simpa only [List.cons_append, isBalancedFrom] using ih h
  | case3 depth c text hq ih =>
    simpa only [List.cons_append, isBalancedFrom, hq, if_true] using ih h
  | case4 depth text hq ih =>
    simpa [isBalancedFrom, hq, Nat.add_assoc] using ih h
  | case5 depth text hq _ ih =>
    simp only [Bool.and_eq_true, bne_iff_ne] at h
    have hsub : outer + depth - 1 = outer + (depth - 1) := by omega
    have hne : (outer + depth != 0) = true := bne_iff_ne.mpr (by omega)
    simpa [isBalancedFrom, hq, hsub, hne] using ih h.2
  | case6 depth c text hq hopen hclose ih =>
    simpa [isBalancedFrom, hq, hopen, hclose] using ih h

theorem enclosesFrom_append {depth : Nat} {quote : Option Char} {text : List Char}
    (h : isBalancedFrom depth quote text = true) {outer : Int} (houter : 1 ≤ outer)
    (rest : List Char) :
    enclosesFrom (outer + depth) quote (text ++ rest) = enclosesFrom outer none rest := by
  fun_induction isBalancedFrom depth quote text with
  | case1 depth quote =>
    simp only [Bool.and_eq_true, beq_iff_eq, Option.isNone_iff_eq_none] at h
    rw [h.1, h.2]
    simp
  | case2 depth c text q ih =>
    simpa only [List.cons_append, enclosesFrom] using ih h
  | case3 depth c text hq ih =>
    simpa only [List.cons_append, enclosesFrom, hq, if_true] using ih h
  | case4 depth text hq ih =>
    simpa [enclosesFrom, hq, Int.add_assoc] using ih h
  | case5 depth text hq _ ih =>
    simp only [Bool.and_eq_true, bne_iff_ne] at h
    have hsub : outer + (depth : Int) - 1 = outer + ((depth - 1 : Nat) : Int) := by omega
    -- the bracket that is closed here was opened inside the text
    have hne : ¬ (outer + (depth : Int) = 1) := by omega
    simpa [enclosesFrom, hq, hsub, hne] using ih h.2
  | case6 depth c text hq hopen hclose ih =>
    simpa [enclosesFrom, hq, hopen, hclose] using ih h

def isDelimiter (c : Char) : Bool :=
  Literal.isQuote c || c == '(' || c == ')'

theorem isDelimiter_of_class {p : Char → Bool} {c : Char} (hc : p c = true)
    (hp : ['\'', '"', '\x60', '(', ')'].any p = false) : isDelimiter c = false := by
  rw [← Bool.not_eq_true]
  intro hd
  simp only [isDelimiter, Literal.isQuote, Bool.or_eq_true, beq_iff_eq] at hd
  refine notMem_of_class hc hp ?_
  rcases hd with (((rfl | rfl) | rfl) | rfl) | rfl <;> decide

theorem isDelimiter_of_isBlank {c : Char} (h : isBlank c = true) : isDelimiter c = false :=
  isDelimiter_of_class h (by decide)

theorem isBalancedFrom_of_not_delimiter {text : List Char}
    (h : ∀ c ∈ text, isDelimiter c = false) : isBalancedFrom 0 none text = true := by
  induction text with
  | nil => rfl
  | cons c text ih =>
    have hc : isDelimiter c = false := h c List.mem_cons_self
    simp only [isDelimiter, Bool.or_eq_false_iff, beq_eq_false_iff_ne] at hc
    simpa [isBalancedFrom, hc] using ih fun d hd => h d (List.mem_cons_of_mem c hd)

theorem isBalancedFrom_blanks (blanks : Text.Blanks) : isBalancedFrom 0 none blanks.val = true :=
  isBalancedFrom_of_not_delimiter fun c hc => isDelimiter_of_isBlank (blanks.property c hc)

def wrap (opening closing : Text.Blanks) (text : List Char) : List Char :=
  '(' :: (opening.val ++ text ++ closing.val) ++ [')']

theorem getLast?_wrap (opening closing : Text.Blanks) (text : List Char) :
    (wrap opening closing text).getLast? = some ')' :=
  List.getLast?_concat

theorem tight_wrap (opening closing : Text.Blanks) (text : List Char) :
    Text.Tight (wrap opening closing text) := by
  constructor
  · intro c hc
    cases hc
    decide
  · intro c hc
    rw [getLast?_wrap] at hc
    cases hc
    decide

theorem isBalancedFrom_padded {text : List Char} (h : isBalancedFrom 0 none text = true)
    (opening closing : Text.Blanks) :
    isBalancedFrom 0 none (opening.val ++ text ++ closing.val) = true := by
  have ho := isBalancedFrom_append (isBalancedFrom_blanks opening) 0 (text ++ closing.val)
  have ht := isBalancedFrom_append h 0 closing.val
  simp only [Nat.add_zero] at ho ht
  rw [List.append_assoc, ho, ht]
  exact isBalancedFrom_blanks closing

theorem isBalancedFrom_wrap {text : List Char} (h : isBalancedFrom 0 none text = true)
    (opening closing : Text.Blanks) : isBalancedFrom 0 none (wrap opening closing text) = true := by
  have hinner := isBalancedFrom_append (isBalancedFrom_padded h opening closing) 1 [')']
  have hopen : isBalancedFrom 0 none (wrap opening closing text) =
      isBalancedFrom 1 none (opening.val ++ text ++ closing.val ++ [')']) := rfl
  rw [hopen, hinner]
  rfl

theorem isWrapped_wrap {text : List Char} (h : isBalancedFrom 0 none text = true)
    (opening closing : Text.Blanks) : isWrapped (wrap opening closing text) = true := by
  have hinner := enclosesFrom_append (isBalancedFrom_padded h opening closing) (Int.le_refl 1) [')']
  have hopen : enclosesFrom 0 none (wrap opening closing text) =
      enclosesFrom 1 none (opening.val ++ text ++ closing.val ++ [')']) := rfl
  have hscan : enclosesFrom 0 none (wrap opening closing text) = true := by
    rw [hopen]
    exact hinner
  simp only [isWrapped, hscan, Bool.and_true, Bool.and_eq_true, beq_iff_eq]
  exact ⟨rfl, getLast?_wrap opening closing text⟩

theorem stripWrapping_of_not_isWrapped {text : List Char} (h : isWrapped text = false) :
    stripWrapping text = text := by
  rw [stripWrapping, dif_neg (by simp [h])]

theorem stripWrapping_wrap {text : List Char} (htight : Text.Tight text)
    (h : isBalancedFrom 0 none text = true) (opening closing : Text.Blanks) :
    stripWrapping (wrap opening closing text) = stripWrapping text := by
  rw [stripWrapping, dif_pos (isWrapped_wrap h opening closing)]
  have hinner : ((wrap opening closing text).drop 1).dropLast =
      opening.val ++ text ++ closing.val := by
    simp [wrap]
  rw [hinner, htight.trim_append opening.property closing.property]

/-! ### Counting brackets -/

def balance (text : List Char) : Int :=
  (text.count '(' : Int) - text.count ')'

@[simp] theorem balance_nil : balance [] = 0 := rfl

@[simp] theorem balance_append (s t : List Char) : balance (s ++ t) = balance s + balance t := by
  simp only [balance, List.count_append]
  omega

@[simp] theorem balance_open (text : List Char) : balance ('(' :: text) = balance text + 1 := by
  simp [balance]
  omega

@[simp] theorem balance_close (text : List Char) : balance (')' :: text) = balance text - 1 := by
  simp [balance]
  omega

theorem balance_of_not_delimiter {text : List Char} (h : ∀ c ∈ text, isDelimiter c = false) :
    balance text = 0 := by
  have hnot : ∀ c, isDelimiter c = true → text.count c = 0 := by
    intro c hc
    apply List.count_eq_zero.mpr
    intro hm
    rw [h c hm] at hc
    cases hc
  simp [balance, hnot '(' (by decide), hnot ')' (by decide)]

@[simp] theorem balance_blanks (blanks : Text.Blanks) : balance blanks.val = 0 :=
  balance_of_not_delimiter fun c hc => isDelimiter_of_isBlank (blanks.property c hc)

theorem balance_cons (c : Char) (text : List Char) :
    balance (c :: text) = balance [c] + balance text := by
  rw [← balance_append, List.singleton_append]

theorem bracketBalance_ofList (text : List Char) :
    bracketBalance (String.ofList text) = balance text := by
  simp [bracketBalance, balance]

theorem namesBalance_append (names others : List String) :
    namesBalance (names ++ others) = namesBalance names + namesBalance others := by
  induction names with
  | nil => simp [namesBalance]
  | cons name names ih =>
    rw [List.cons_append, namesBalance, ih, namesBalance]
    omega

theorem depth_leaf (text : List Char) (names : List String) :
    (leaf (String.ofList text) names).depth = balance text - namesBalance names := by
  simp [depth, bracketBalance, balance]

end DocQuery.Condition
