import DocQuery.Proofs.Condition.Expression

/-! Reduction undoes the flattening of an expression: the filter of its list is that of its
comparisons, combined as the expression says. -/

namespace DocQuery.Condition

theorem closeText_append (text : List Char) (blanks : Text.Blanks)
    (hhead : ∀ c ∈ text.head?, isBlank c = false) :
    closeText (String.ofList (text ++ ')' :: blanks.val)) = String.ofList text := by
  have htight : Text.Tight (text ++ [')']) := by
    constructor
    · intro c hc
      cases text with
      | nil =>
        cases hc
        decide
      | cons d text => exact hhead c hc
    · intro c hc
      rw [List.getLast?_concat] at hc
      cases hc
      decide
  have htrim : Text.trim ([] ++ (text ++ [')']) ++ blanks.val) = text ++ [')'] :=
    htight.trim_append (by simp) blanks.property
  have happend : text ++ ')' :: blanks.val = [] ++ (text ++ [')']) ++ blanks.val := by simp
  rw [closeText, String.toList_ofList, happend, htrim]
  simp [Text.stripLast, Text.stripFirst]

theorem splitGroup_connective {word : String} (h : (connective word).depth = 0) (depth : Int)
    (rest : List Condition) : splitGroup depth (connective word :: rest) =
      (connective word :: (splitGroup depth rest).1, (splitGroup depth rest).2) := by
  simp only [splitGroup, h, Int.add_zero]

theorem splitOperand_connective {word : String} {depth : Int}
    (h : ((connective word).isOr && depth == 0) = false) (rest : List Condition) :
    splitOperand depth (connective word :: rest) =
      (connective word :: (splitOperand depth rest).1, (splitOperand depth rest).2) := by
  simp only [splitOperand, isConnective, h, if_true, Bool.false_eq_true, if_false]

namespace Expression

variable {level : Level}

theorem splitGroup_conditions {e : Expression level} {depth : Int} {opening closing : List Char}
    (hopen : 1 ≤ depth + balance opening)
    (hclose : 1 ≤ depth + balance opening + balance closing) (rest : List Condition) :
    splitGroup depth (e.conditions opening closing ++ rest) =
      (e.conditions opening closing ++
          (splitGroup (depth + balance opening + balance closing) rest).1,
        (splitGroup (depth + balance opening + balance closing) rest).2) := by
  induction e generalizing depth opening closing rest with
  | leaf l =>
    have hne : depth + (balance opening + balance closing) ≠ 0 := by omega
    simp only [conditions, List.singleton_append, splitGroup, l.depth_padded, if_neg hne,
      Int.add_assoc]
  | group a b e ih =>
    have hb : balance (opening ++ '(' :: a.val) = balance opening + 1 := by simp
    have hc : balance (b.val ++ ')' :: closing) = balance closing - 1 := by simp
    have hsum : depth + balance (opening ++ '(' :: a.val) + balance (b.val ++ ')' :: closing) =
        depth + balance opening + balance closing := by omega
    rw [conditions, ih (by omega) (by omega), hsum]
  | primary p ih => exact ih hopen hclose rest
  | and x p ihx ihp =>
    rw [conditions, List.append_assoc, ihx hopen (by simpa using hopen), List.cons_append,
      splitGroup_connective (by decide), balance_nil, Int.add_zero,
      ihp (by simpa using hopen) (by simpa using hclose)]
    simp
  | conjunction x ih => exact ih hopen hclose rest
  | or d x ihd ihx =>
    rw [conditions, List.append_assoc, ihd hopen (by simpa using hopen), List.cons_append,
      splitGroup_connective (by decide), balance_nil, Int.add_zero,
      ihx (by simpa using hopen) (by simpa using hclose)]
    simp

/-- A group that the last comparison closes ends there, without its last bracket. -/
theorem splitGroup_closing {e : Expression level} {depth : Int} {opening closing : List Char}
    (hopen : 1 ≤ depth + balance opening) (hclose : depth + balance opening + balance closing = 1)
    (hhead : e.sole? = none ∨ ∀ c ∈ opening.head?, isBlank c = false) (blanks : Text.Blanks)
    (rest : List Condition) :
    splitGroup depth (e.conditions opening (closing ++ ')' :: blanks.val) ++ rest) =
      (e.conditions opening closing, rest) := by
  -- Only the last comparison gets the closing bracket, so all others are passed at a positive
  -- depth.
  induction e generalizing depth opening closing rest with
  | leaf l =>
    have hhead' : ∀ c ∈ (opening ++ l.text ++ closing).head?, isBlank c = false := by
      rcases hhead with h | h
      · cases h
      · cases opening with
        | nil =>
          obtain ⟨c, text, htext⟩ := List.exists_cons_of_ne_nil l.nonempty
          have hl := l.tight.head
          rw [htext] at hl ⊢
          exact hl
        | cons c opening => exact h
    have hzero : depth + (balance opening + balance (closing ++ ')' :: blanks.val)) = 0 := by
      simp only [balance_append, balance_close, balance_blanks]
      omega
    have hclosed := closeText_append (opening ++ l.text ++ closing) blanks hhead'
    simp only [conditions, List.singleton_append, splitGroup, l.depth_padded, if_pos hzero]
    rw [← List.append_assoc, hclosed]
  | group a b e ih =>
    have hb : balance (opening ++ '(' :: a.val) = balance opening + 1 := by simp
    have hc : balance (b.val ++ ')' :: closing) = balance closing - 1 := by simp
    have hhead' : e.sole? = none ∨ ∀ c ∈ (opening ++ '(' :: a.val).head?, isBlank c = false := by
      refine hhead.imp_right fun h => ?_
      cases opening with
      | nil =>
        intro c hc
        cases hc
        decide
      | cons c opening => exact h
    have happend : b.val ++ ')' :: (closing ++ ')' :: blanks.val) =
        (b.val ++ ')' :: closing) ++ ')' :: blanks.val := by simp
    rw [conditions, happend, ih (by omega) (by omega) hhead', conditions]
  | primary p ih => exact ih hopen hclose hhead rest
  | and x p _ ihp =>
    rw [conditions, List.append_assoc, splitGroup_conditions hopen (by simpa using hopen),
      List.cons_append, splitGroup_connective (by decide), balance_nil, Int.add_zero,
      ihp (by simpa using hopen) (by simpa using hclose) (.inr (by simp)), conditions]
  | conjunction x ih => exact ih hopen hclose hhead rest
  | or d x _ ihx =>
    rw [conditions, List.append_assoc, splitGroup_conditions hopen (by simpa using hopen),
      List.cons_append, splitGroup_connective (by decide), balance_nil, Int.add_zero,
      ihx (by simpa using hopen) (by simpa using hclose) (.inr (by simp)), conditions]

theorem splitOperand_conditions {e : Expression level} {depth : Int} {opening closing : List Char}
    (hopen : 0 ≤ depth + balance opening)
    (hlevel : level = .disjunction → 1 ≤ depth + balance opening) (rest : List Condition) :
    splitOperand depth (e.conditions opening closing ++ rest) =
      (e.conditions opening closing ++
          (splitOperand (depth + balance opening + balance closing) rest).1,
        (splitOperand (depth + balance opening + balance closing) rest).2) := by
  induction e generalizing depth opening closing rest with
  | leaf l =>
    simp only [conditions, List.singleton_append, splitOperand, isConnective, Bool.false_eq_true,
      if_false, l.depth_padded, Int.add_assoc]
  | group a b e ih =>
    have hb : balance (opening ++ '(' :: a.val) = balance opening + 1 := by simp
    have hc : balance (b.val ++ ')' :: closing) = balance closing - 1 := by simp
    have hsum : depth + balance (opening ++ '(' :: a.val) + balance (b.val ++ ')' :: closing) =
        depth + balance opening + balance closing := by omega
    rw [conditions, ih (by omega) (fun _ => by omega), hsum]
  | primary p ih => exact ih hopen (fun h => by cases h) rest
  | and x p ihx ihp =>
    have hword : (connective "AND").isOr = false := by decide
    rw [conditions, List.append_assoc, ihx hopen (fun h => by cases h), List.cons_append,
      splitOperand_connective (by rw [hword, Bool.false_and]), balance_nil, Int.add_zero,
      ihp (by simpa using hopen) (fun h => by cases h)]
    simp
  | conjunction x ih => exact ih hopen (fun h => by cases h) rest
  | or d x ihd ihx =>
    have hinside : 1 ≤ depth + balance opening := hlevel rfl
    have hne : (depth + balance opening == 0) = false := by
      simp only [beq_eq_false_iff_ne]
      omega
    rw [conditions, List.append_assoc, ihd hopen hlevel, List.cons_append, balance_nil,
      Int.add_zero, splitOperand_connective (by rw [hne, Bool.and_false]),
      ihx (by simpa using hopen) (fun h => by cases h)]
    simp

end Expression

/-! ### The steps of reduction -/

section Steps

variable (convert : List String → List Char → Except InlineError Filter) (f : Filter)
  (cs : List Condition)

theorem reduceFrom_nil : reduceFrom convert f [] = .ok f := by
  rw [reduceFrom]

theorem reduceFrom_and :
    reduceFrom convert f (connective "AND" :: cs) = reduceFrom convert f cs := by
  rw [reduceFrom, if_neg (by decide)]

theorem reduceFrom_or : reduceFrom convert f (connective "OR" :: cs) =
    (reduceFrom convert [] (splitOperand 0 cs).1 >>= fun g =>
      reduceFrom convert (f.or g) (splitOperand 0 cs).2) := by
  rw [reduceFrom, if_pos (by decide)]

variable {text : String} {names : List String}

theorem reduceFrom_leaf (h : (leaf text names).depth = 0) :
    reduceFrom convert f (leaf text names :: cs) =
      ((convert names (stripWrapping (Text.trim text.toList))).mapError .inline >>= fun g =>
        reduceFrom convert (f.and g) cs) := by
  rw [reduceFrom, if_pos (Int.le_of_eq h), h]
  simp only [bareText, Int.neg_zero, Int.toNat_zero, stripClosing]
  cases convert names (stripWrapping (Text.trim text.toList)) <;> rfl

theorem reduceFrom_group {inner : List Char} (h : 1 ≤ (leaf text names).depth)
    (hopen : openText? text = some inner) :
    reduceFrom convert f (leaf text names :: cs) =
      (reduceFrom convert []
          (leaf (String.ofList inner) names :: (splitGroup (leaf text names).depth cs).1) >>=
        fun g => reduceFrom convert (f.and g) (splitGroup (leaf text names).depth cs).2) := by
  rw [reduceFrom, if_neg (by omega)]
  split
  · rename_i hnone
    rw [hopen] at hnone
    cases hnone
  · rename_i inner' hsome
    rw [hopen] at hsome
    cases hsome
    rfl

end Steps

theorem openText?_append {blanks : Text.Blanks} {inner : List Char}
    (hlast : ∃ front c, inner = front ++ [c] ∧ isBlank c = false) :
    openText? (String.ofList (blanks.val ++ '(' :: inner)) = some inner := by
  have htight : Text.Tight ('(' :: inner) := by
    obtain ⟨front, c, rfl, hc⟩ := hlast
    constructor
    · intro d hd
      cases hd
      decide
    · intro d hd
      rw [← List.cons_append, List.getLast?_concat] at hd
      cases hd
      exact hc
  have htrim : Text.trim (blanks.val ++ '(' :: inner ++ []) = '(' :: inner :=
    htight.trim_append blanks.property (by simp)
  rw [List.append_nil] at htrim
  rw [openText?, String.toList_ofList, htrim]
  rfl

namespace Expression

variable {level : Level}

theorem filter_of_sole? {ε : Type} {convert : Leaf → Except ε Filter} {e : Expression level}
    {l : Leaf} (h : e.sole? = some l) : e.filter convert = convert l := by
  induction e with
  | leaf k =>
    cases h
    rfl
  | group a b e ih => exact ih h
  | primary p ih => exact ih h
  | and x p => cases h
  | conjunction x ih => exact ih h
  | or d x => cases h

theorem splitOperand_of_head {rest : List Condition} (h : ∀ c ∈ rest.head?, c.isOr = true) :
    splitOperand 0 rest = ([], rest) := by
  cases rest with
  | nil => rfl
  | cons c rest =>
    have hc : c.isOr = true := h c rfl
    cases c with
    | connective word => simp [splitOperand, isConnective, hc]
    | leaf text names => cases hc

theorem reduceFrom_sole (convert : List String → List Char → Except InlineError Filter)
    (f : Filter) {e : Expression level} {l : Leaf} (he : e.sole? = some l) (o c : Text.Blanks)
    (rest : List Condition) :
    reduceFrom convert f (e.conditions o.val c.val ++ rest) =
      (e.filter (fun l => (convert l.names l.text).mapError .inline) >>= fun g =>
        reduceFrom convert (f.and g) rest) := by
  obtain ⟨text, htight, -, hbalance, hstrip, hconditions⟩ := conditions_of_sole? he
  have hdepth : (Condition.leaf (String.ofList (o.val ++ text ++ c.val)) l.names).depth = 0 := by
    rw [depth_leaf, ← l.balance_text]
    simp [hbalance]
  rw [hconditions, List.singleton_append, reduceFrom_leaf convert f rest hdepth,
    String.toList_ofList, htight.trim_append o.property c.property, hstrip, filter_of_sole? he]

theorem reduceFrom_brackets (convert : List String → List Char → Except InlineError Filter)
    (f : Filter) {e : Expression level} (he : e.sole? = none) (o c a b : Text.Blanks)
    (rest : List Condition) :
    reduceFrom convert f
        (e.conditions (o.val ++ '(' :: a.val) (b.val ++ ')' :: c.val) ++ rest) =
      (reduceFrom convert [] (e.conditions a.val b.val) >>= fun g =>
        reduceFrom convert (f.and g) rest) := by
  obtain ⟨text, names, -, hstarts⟩ := e.conditions_startsWith
  obtain ⟨tail, htail⟩ := (hstarts he (b.val ++ ')' :: c.val)).eq_cons
  obtain ⟨tail', htail'⟩ := (hstarts he b.val).eq_cons
  have hdepth :
      1 ≤ (Condition.leaf (String.ofList (o.val ++ '(' :: a.val ++ text)) names).depth := by
    have h := (hstarts he []).depth_nonneg
    rw [depth_leaf] at h ⊢
    simp only [balance_append, balance_open, balance_blanks]
    omega
  have hopen :
      openText? (String.ofList (o.val ++ '(' :: a.val ++ text)) = some (a.val ++ text) := by
    have h := (hstarts he []).last
    obtain ⟨front, d, rfl, hd⟩ := h
    rw [List.append_assoc, List.cons_append]
    exact openText?_append ⟨a.val ++ front, d, by simp, hd⟩
  -- the scan of the whole list, of which the first comparison is one step
  have hgroup : splitGroup 0
      (e.conditions (o.val ++ '(' :: a.val) (b.val ++ ')' :: c.val) ++ rest) =
        (e.conditions (o.val ++ '(' :: a.val) b.val, rest) :=
    splitGroup_closing (by simp) (by simp) (.inl he) c rest
  rw [htail, htail', List.cons_append, splitGroup] at hgroup
  simp only [Int.zero_add] at hgroup
  rw [if_neg (by omega)] at hgroup
  obtain ⟨hfirst, hrest⟩ := Prod.mk.inj hgroup
  rw [htail, List.cons_append, reduceFrom_group convert f _ hdepth hopen, hrest,
    (List.cons.inj hfirst).2, htail']

/-- Reducing the list of an expression gives its filter and goes on behind it. A conjunction or a
disjunction starts with nothing before it, and a disjunction goes up to the next `OR`. -/
theorem reduceFrom_conditions (convert : List String → List Char → Except InlineError Filter)
    (e : Expression level) (f : Filter) (o c : Text.Blanks) (rest : List Condition)
    (hstart : level ≠ .primary → f = [])
    (hrest : level = .disjunction → ∀ d ∈ rest.head?, d.isOr = true) :
    reduceFrom convert f (e.conditions o.val c.val ++ rest) =
      (e.filter (fun l => (convert l.names l.text).mapError .inline) >>= fun g =>
        reduceFrom convert (f.and g) rest) := by
  -- The levels of the syntax tell what has been reduced before: nothing, unless a primary is to be
  -- joined to it.
  induction e generalizing f o c rest with
  | leaf l => exact reduceFrom_sole convert f rfl o c rest
  | group a b e ih =>
    -- A group around a lone comparison is no group for the reduction: its brackets are stripped.
    cases he : e.sole? with
    | none =>
      have hinner := ih [] a b [] (fun _ => rfl) (fun _ => by simp)
      rw [List.append_nil] at hinner
      rw [conditions, reduceFrom_brackets convert f he, hinner, filter, bind_assoc]
      simp only [Filter.nil_and, reduceFrom_nil]
      rfl
    | some l => exact reduceFrom_sole convert f (e := group a b e) he o c rest
  | primary p ih =>
    obtain rfl := hstart (by simp)
    exact ih [] o c rest (fun _ => rfl) (fun h => by cases h)
  | and x p ihx ihp =>
    obtain rfl := hstart (by simp)
    have hx : reduceFrom convert [] (x.conditions o.val [] ++
        (.connective "AND" :: (p.conditions [] c.val ++ rest))) = _ :=
      ihx [] o .none _ (fun _ => rfl) (fun h => by cases h)
    rw [conditions, List.append_assoc, List.cons_append, hx, filter, bind_assoc]
    congr 1
    funext g
    have hp : reduceFrom convert g (p.conditions [] c.val ++ rest) = _ :=
      ihp g .none c rest (fun h => absurd rfl h) (fun h => by cases h)
    rw [Filter.nil_and, reduceFrom_and, hp, bind_assoc]
    simp
  | conjunction x ih =>
    obtain rfl := hstart (by simp)
    exact ih [] o c rest (fun _ => rfl) (fun h => by cases h)
  | or d x ihd ihx =>
    obtain rfl := hstart (by simp)
    have hd : reduceFrom convert [] (d.conditions o.val [] ++
        (.connective "OR" :: (x.conditions [] c.val ++ rest))) = _ :=
      ihd [] o .none _ (fun _ => rfl) (fun _ e he => by cases he; rfl)
    rw [conditions, List.append_assoc, List.cons_append, hd, filter, bind_assoc]
    congr 1
    funext g
    have hx : reduceFrom convert [] (x.conditions [] c.val ++ []) = _ :=
      ihx [] .none c [] (fun _ => rfl) (fun h => by cases h)
    -- The right side of an `OR` is a conjunction, so it ends where the disjunction goes on or ends.
    have hsplit :
        splitOperand 0 (x.conditions [] c.val ++ rest) = (x.conditions [] c.val, rest) := by
      rw [splitOperand_conditions (by simp) (fun h => by cases h)]
      simp [splitOperand_of_head (hrest rfl)]
    rw [List.append_nil] at hx
    rw [Filter.nil_and, reduceFrom_or, hsplit, hx, bind_assoc, bind_assoc]
    simp only [Filter.nil_and, reduceFrom_nil]
    rfl

end Expression

end DocQuery.Condition
