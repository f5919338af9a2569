import DocQuery.Aggregation.Flatten
import DocQuery.Proofs.Arithmetic.Alternation

/-! Telling leaves from other expressions by their text. A call is marked right on top of its name
and goes when its group closes without an operation, so that a text without an operator has no
operation left when it has been collapsed. -/

namespace DocQuery.Arithmetic

/-! ### Calls on the stack -/

/-- On every call lies the bracket of its argument. -/
structure Marked (stack : List Piece) : Prop where
  top : stack.head? ≠ some .call
  covered : stack.IsChain fun above below => below = .call → above = .lparen

namespace Marked

variable {stack : List Piece}

theorem nil : Marked [] :=
  ⟨by simp, .nil⟩

theorem push (h : Marked stack) {p : Piece} (hp : p ≠ .call) : Marked (p :: stack) := by
  refine ⟨by simpa using hp, h.covered.cons fun below hbelow hcall => ?_⟩
  rw [hcall] at hbelow
  exact absurd hbelow h.top

theorem call (h : Marked stack) : Marked (.lparen :: .call :: stack) := by
  refine ⟨by simp, .cons (h.covered.cons fun below hbelow hcall => ?_) (by simp)⟩
  rw [hcall] at hbelow
  exact absurd hbelow h.top

theorem of_append (front : List Piece) (h : Marked (front ++ stack))
    (htop : stack.head? ≠ some .call) : Marked stack :=
  ⟨htop, h.covered.right_of_append⟩

theorem tail {p : Piece} (h : Marked (p :: stack)) (hp : p ≠ .lparen) : Marked stack := by
  refine ⟨fun htop => hp ?_, h.covered.tail⟩
  exact h.covered.rel_head? htop rfl

end Marked

theorem closeGroup_cases {group rest result : List Piece}
    (h : Piece.closeGroup group rest = .ok result) :
    (group.any Piece.isOperation = true ∧
      result = .rparen :: (group.reverse ++ Piece.lparen :: rest)) ∨
    group.any Piece.isOperation = false ∧
      ((∃ name below, rest = .call :: .operand name :: below ∧
          result = .operand (name ++ '(' :: glued group ++ [')']) :: below) ∨
        (rest.head? ≠ some .call ∧ ((glued group = [] ∧ result = rest) ∨
          (glued group ≠ [] ∧ result = .operand (glued group) :: rest)))) := by
  unfold Piece.closeGroup at h
  by_cases hoperation : group.any Piece.isOperation = true
  · rw [if_pos hoperation] at h
    cases h
    exact .inl ⟨hoperation, rfl⟩
  · rw [if_neg hoperation] at h
    refine .inr ⟨by simpa using hoperation, ?_⟩
    dsimp only at h
    split at h
    · rename_i name below
      cases h
      exact .inl ⟨name, below, rfl, rfl⟩
    · cases h
    · rename_i hnot
      have hhead : rest.head? ≠ some .call := by
        intro hhead
        obtain ⟨below, rfl⟩ := List.head?_eq_some_iff.mp hhead
        exact hnot below rfl
      cases h
      by_cases hempty : glued group = []
      · exact .inr ⟨hhead, .inl ⟨hempty, if_pos (List.isEmpty_iff.mpr hempty)⟩⟩
      · exact .inr ⟨hhead, .inr ⟨hempty, if_neg fun h => hempty (List.isEmpty_iff.mp h)⟩⟩

theorem Stacked.exists_closeGroup {rest : List Piece} (h : Stacked rest) (group : List Piece) :
    ∃ result, Piece.closeGroup group rest = .ok result := by
  have hname : ∀ below, rest = .call :: below → ∃ name under, below = .operand name :: under := by
    rintro below rfl
    generalize hs : Piece.call :: below = whole at h
    cases h with
    | pile h =>
      cases h with
      | call => exact ⟨_, _, (List.cons.inj hs).2⟩
      | _ => cases hs
    | «open» h _ =>
      cases h with
      | call => exact ⟨_, _, (List.cons.inj hs).2⟩
      | _ => cases hs
  by_cases hoperation : group.any Piece.isOperation = true
  · exact ⟨_, by rw [Piece.closeGroup, if_pos hoperation]⟩
  · rw [Piece.closeGroup, if_neg hoperation]
    dsimp only
    split
    · exact ⟨_, rfl⟩
    · rename_i below hnot
      obtain ⟨name, under, rfl⟩ := hname below rfl
      exact absurd rfl (hnot name under)
    · exact ⟨_, rfl⟩

/-! ### Collapsing -/

/-- What holds of the stack in front of each piece. -/
structure Kept (afterOperand : Bool) (stack : List Piece) : Prop where
  stacked : Stacked stack
  marked : Marked stack
  name : NameOnTop afterOperand stack

theorem kept_nil : Kept false [] :=
  ⟨.pile .nil, .nil, nameOnTop_false _⟩

namespace Kept

variable {b : Bool} {stack group rest pieces : List Piece}

theorem close (h : Kept b stack) (htake : Piece.takeGroup 0 [] stack = some (group, rest)) :
    ∃ next, Piece.closeGroup group rest = .ok next ∧ Kept false next ∧
      ∀ op, .operator op ∈ next → .operator op ∈ stack := by
  obtain ⟨hstack, -, hrest⟩ := h.stacked.takeGroup_eq htake
  obtain ⟨next, hclose⟩ := hrest.exists_closeGroup group
  have hnext := (h.stacked.close_cases htake hclose).1
  have hmarked := h.marked
  rw [hstack] at hmarked
  rcases closeGroup_cases hclose with ⟨-, rfl⟩ | ⟨-, ⟨name, below, rfl, rfl⟩ | ⟨hhead, hresult⟩⟩
  · exact ⟨_, hclose, ⟨hnext, hmarked.push (by simp), nameOnTop_false _⟩, by simp [hstack]⟩
  · have hbelow : Marked (.operand name :: below) :=
      Marked.of_append (group.reverse ++ [Piece.lparen, .call]) (by simpa using hmarked)
        (by simp)
    exact ⟨_, hclose, ⟨hnext, (hbelow.tail (by simp)).push (by simp), nameOnTop_false _⟩,
      by simp +contextual [hstack]⟩
  · have hunder : Marked rest :=
      Marked.of_append (group.reverse ++ [Piece.lparen]) (by simpa using hmarked) hhead
    rcases hresult with ⟨-, rfl⟩ | ⟨-, rfl⟩
    · exact ⟨_, hclose, ⟨hnext, hunder, nameOnTop_false _⟩, by simp +contextual [hstack]⟩
    · exact ⟨_, hclose, ⟨hnext, hunder.push (by simp), nameOnTop_false _⟩,
        by simp +contextual [hstack]⟩

theorem step (h : Kept b stack) {p : Piece} (hcall : p ≠ .call)
    (hbare : ∀ name, p = .operand name → Bare name) :
    Piece.collapseFrom stack (Piece.markCalls b (p :: pieces)) = .error .unbalancedClose ∨
      ∃ next, Kept p.isOperand next ∧
        Piece.collapseFrom stack (Piece.markCalls b (p :: pieces)) =
          Piece.collapseFrom next (Piece.markCalls p.isOperand pieces) ∧
        ∀ op, .operator op ∈ next → .operator op ∈ stack ∨ p = .operator op := by
  cases p with
  | operand text =>
    have htext := hbare text rfl
    refine .inr ⟨.operand text :: stack, ⟨h.stacked.push fun _ => .operand htext.tidy,
      h.marked.push (by simp), fun _ => ⟨text, stack, rfl, htext⟩⟩, rfl, by simp +contextual⟩
  | operator op =>
    refine .inr ⟨.operator op :: stack, ⟨h.stacked.push fun _ => .operator,
      h.marked.push (by simp), nameOnTop_false _⟩, rfl, fun other hother => ?_⟩
    rcases List.mem_cons.mp hother with hsame | hbelow
    · exact .inr hsame.symm
    · exact .inl hbelow
  | call => exact absurd rfl hcall
  | lparen =>
    cases b with
    | false =>
      exact .inr ⟨.lparen :: stack, ⟨.open .nil h.stacked, h.marked.push (by simp),
        nameOnTop_false _⟩, rfl, by simp +contextual⟩
    | true =>
      obtain ⟨name, below, rfl, hname⟩ := h.name rfl
      exact .inr ⟨.lparen :: .call :: .operand name :: below, ⟨.open .nil (h.stacked.call hname),
        h.marked.call, nameOnTop_false _⟩, rfl, by simp +contextual⟩
  | rparen =>
    cases htake : Piece.takeGroup 0 [] stack with
    | none => exact .inl (by simp [Piece.markCalls, Piece.collapseFrom, htake])
    | some taken =>
      obtain ⟨next, hclose, hnext, hops⟩ := h.close htake
      refine .inr ⟨next, hnext, ?_, fun op hop => .inl (hops op hop)⟩
      simp [Piece.markCalls, Piece.isOperand, Piece.collapseFrom, htake, hclose]

theorem run (h : Kept b stack)
    (hpieces : ∀ p ∈ pieces, p ≠ .call ∧ ∀ name, p = .operand name → Bare name) :
    Piece.collapseFrom stack (Piece.markCalls b pieces) = .error .unbalancedClose ∨
      ∃ result, Piece.collapseFrom stack (Piece.markCalls b pieces) = .ok result ∧
        Stacked result.reverse ∧ Marked result.reverse ∧
        ∀ op, .operator op ∈ result → .operator op ∈ stack ∨ .operator op ∈ pieces := by
  induction pieces generalizing b stack with
  | nil =>
    refine .inr ⟨stack.reverse, rfl, ?_, ?_, by simp⟩
    · simpa using h.stacked
    · simpa using h.marked
  | cons p pieces ih =>
    obtain ⟨hp, hrest⟩ := List.forall_mem_cons.mp hpieces
    rcases h.step hp.1 hp.2 with herror | ⟨next, hnext, heq, hops⟩
    · exact .inl herror
    · rw [heq]
      rcases ih hnext hrest with herror | ⟨result, hresult, hstacked, hmarked, hfrom⟩
      · exact .inl herror
      · refine .inr ⟨result, hresult, hstacked, hmarked, fun op hop => ?_⟩
        rcases hfrom op hop with hop | hop
        · rcases hops op hop with hop | rfl
          · exact .inl hop
          · exact .inr List.mem_cons_self
        · exact .inr (List.mem_cons_of_mem p hop)

end Kept

/-! ### Putting pieces in order -/

theorem order_error {pieces waiting : List Piece} {error : ExprError}
    (h : Piece.order waiting pieces = .error error) :
    error = .unbalancedClose ∨ error = .unbalancedOpen := by
  have hmap : ∀ {r : Except ExprError (List Step)} {f : List Step → List Step},
      r.map f = .error error → r = .error error := by
    intro r f hr
    cases r with
    | error e => exact hr
    | ok ss => cases hr
  induction pieces generalizing waiting with
  | nil =>
    rw [Piece.order] at h
    split at h
    · cases h
    · cases h
      exact .inr rfl
  | cons p pieces ih =>
    cases p with
    | operand text => exact ih (hmap h)
    | lparen => exact ih h
    | rparen =>
      rw [Piece.order] at h
      split at h
      · cases h
        exact .inl rfl
      · exact ih (hmap h)
    | operator op => exact ih (hmap h)
    | call => exact ih (hmap h)

theorem pile_of_order {pieces : List Piece} {ss : List Step} (hstack : Stacked pieces.reverse)
    (h : Piece.order [] pieces = .ok ss) : Pile pieces.reverse := by
  have hnesting : total 0 1 pieces.reverse = 0 := by
    simpa using nesting_of_order h
  generalize pieces.reverse = stack at hstack hnesting
  cases hstack with
  | pile h => exact h
  | «open» h below =>
    have hbelow := below.nesting_nonneg
    rw [total_append, h.nesting_eq, total_cons, weight] at hnesting
    omega

theorem exists_pile_of_read {text : String} {e : Expr} (h : Expr.read text = .ok e) :
    ∃ pieces, Piece.collapse (Piece.markCalls false (Piece.split text.toList)) = .ok pieces ∧
      Piece.order [] pieces = .ok e.program ∧ Pile pieces.reverse := by
  obtain ⟨pieces, hcollapse, horder⟩ := exists_pieces_of_read h
  have hstacked := (stacked_collapseFrom (bare_of_mem_split _) (nameOnTop_false _) (.pile .nil)
    hcollapse).1
  exact ⟨pieces, hcollapse, horder, pile_of_order hstacked horder⟩

theorem total_of_operands {pieces : List Piece} (h : ∀ p ∈ pieces, p.isOperand = true) :
    total 1 0 pieces = pieces.length := by
  induction pieces with
  | nil => rfl
  | cons p pieces ih =>
    obtain ⟨hp, hrest⟩ := List.forall_mem_cons.mp h
    cases p with
    | operand text =>
      rw [total_cons, ih hrest, weight, List.length_cons]
      omega
    | _ => cases hp

theorem exists_operand_of_order {pieces : List Piece} {e : Expr} (hpile : Pile pieces.reverse)
    (hplain : pieces.any Piece.isOperation = false) (h : Piece.order [] pieces = .ok e.program) :
    ∃ name, pieces = [.operand name] ∧ e = .leaf (String.ofList name) := by
  have hoperands : ∀ p ∈ pieces, p.isOperand = true := by
    simpa using isOperand_of_mem_pile hpile (by simpa using hplain)
  have hone : 1 = total 1 0 pieces := by
    simpa [stepTotal, stepTotal_program] using total_of_order (a := 1) h
  rw [total_of_operands hoperands] at hone
  obtain ⟨p, rfl⟩ : ∃ p, pieces = [p] := List.length_eq_one_iff.mp (by omega)
  cases p with
  | operand name =>
    have hprogram : Expr.ofSteps e.program = .ok (.leaf (String.ofList name)) := by
      rw [← Except.ok.inj h]
      rfl
    rw [e.ofSteps_program] at hprogram
    exact ⟨name, rfl, Except.ok.inj hprogram⟩
  | _ => cases hoperands _ List.mem_cons_self

theorem Pile.plain_of_marked {pile : List Piece} (h : Pile pile) (hmarked : Marked pile)
    (hop : ∀ op, .operator op ∉ pile) : pile.any Piece.isOperation = false := by
  induction h with
  | nil => rfl
  | operand _ _ ih =>
    have hbelow := ih (hmarked.tail (by simp)) fun op hmem => hop op (List.mem_cons_of_mem _ hmem)
    simpa [Piece.isOperation] using hbelow
  | @operator op => exact absurd List.mem_cons_self (hop op)
  | call => exact absurd rfl hmarked.top
  | @block inner pile _ hoperation _ ihi _ =>
    -- The inside of a block that stays has an operation, and no call without one deeper inside.
    have hinner : Marked inner := by
      have htail : Marked (inner ++ Piece.lparen :: pile) := hmarked.tail (by simp)
      refine ⟨?_, htail.covered.left_of_append⟩
      cases inner with
      | nil => simp
      | cons p inner => simpa using htail.top
    have hplain := ihi hinner fun op hmem => hop op (by simp [hmem])
    rw [hoperation] at hplain
    cases hplain

/-! ### Reading -/

theorem isComposite_of_read {text : String} {e : Expr} (h : Expr.read text = .ok e) :
    Expr.isComposite text = false ↔ isLeaf e = true := by
  obtain ⟨pieces, hcollapse, horder⟩ := exists_pieces_of_read h
  constructor
  · intro hplain
    rcases kept_nil.run (bare_of_mem_split text.toList) with
      herror | ⟨result, hresult, hstacked, hmarked, hfrom⟩
    · cases hcollapse.symm.trans herror
    · cases hcollapse.symm.trans hresult
      have hpile := pile_of_order hstacked horder
      have hnone : ∀ op, .operator op ∉ pieces.reverse := by
        intro op hop
        have hsplit := (hfrom op (List.mem_reverse.mp hop)).resolve_left List.not_mem_nil
        have hcomposite : Expr.isComposite text = true := List.any_eq_true.mpr ⟨_, hsplit, rfl⟩
        rw [hplain] at hcomposite
        cases hcomposite
      have hoperation := hpile.plain_of_marked hmarked hnone
      obtain ⟨name, -, rfl⟩ := exists_operand_of_order hpile (by simpa using hoperation) horder
      rfl
  · intro hleaf
    obtain ⟨name, rfl⟩ := eq_leaf_of_isLeaf hleaf
    rw [Expr.isComposite, List.any_eq_false]
    intro p hp hoperator
    cases p with
    | operator op =>
      have hstays := (stacked_collapseFrom (bare_of_mem_split _) (nameOnTop_false _) (.pile .nil)
        hcollapse).2 op (.inr hp)
      simpa [Expr.program] using mem_of_order horder (s := .operator op) rfl (.inl hstays)
    | _ => cases hoperator

theorem ofText_error {text : String} {error : ExprError} (h : Step.ofText text = .error error) :
    error = .unbalancedClose ∨ error = .unbalancedOpen := by
  rcases kept_nil.run (bare_of_mem_split text.toList) with herror | ⟨result, hresult, -⟩
  · rw [Step.ofText, Piece.collapse, herror] at h
    cases h
    exact .inl rfl
  · rw [Step.ofText, Piece.collapse, hresult] at h
    exact order_error h

def readsLeaf (item : SelectItem) : Bool :=
  match Expr.read item.expr with
  | .ok e => isLeaf e
  | .error _ => false

def readsTree (item : SelectItem) : Bool :=
  match Expr.read item.expr with
  | .ok e => !isLeaf e
  | .error _ => false

/-- A text that is read has an operator in it where it is not read as a leaf, so that the items that
come first in an aggregation are those that are read as leaves. No call is found without a name. -/
theorem composite_iff_tree :
    (∀ (text : String) (e : Expr), Expr.read text = .ok e →
      (Expr.isComposite text = false ↔ ∃ name, e = .leaf name)) ∧
    (∀ items : List SelectItem, (∀ item ∈ items, ∃ e, Expr.read item.expr = .ok e) →
      items.filter (fun item => !Expr.isComposite item.expr) = items.filter readsLeaf ∧
      items.filter (fun item => Expr.isComposite item.expr) = items.filter readsTree ∧
      Aggregation.ofItems items =
        (items.filter readsLeaf ++ items.filter readsTree).foldlM Aggregation.addItem {}) ∧
    ∀ text argument : String, Step.ofText text ≠ .error (.callWithoutName argument) := by
  refine ⟨fun text e h => ?_, fun items hitems => ?_, fun text argument h => ?_⟩
  · rw [isComposite_of_read h]
    exact ⟨eq_leaf_of_isLeaf, by rintro ⟨name, rfl⟩; rfl⟩
  · have hitem : ∀ item ∈ items, (!Expr.isComposite item.expr) = readsLeaf item ∧
        Expr.isComposite item.expr = readsTree item := by
      intro item hmem
      obtain ⟨e, he⟩ := hitems item hmem
      have hiff := isComposite_of_read he
      cases hleaf : isLeaf e with
      | true => simp [readsLeaf, readsTree, he, hleaf, hiff.mpr hleaf]
      | false =>
        have hcomposite : Expr.isComposite item.expr = true := by
          rw [← Bool.not_eq_false, hiff, hleaf]
          exact Bool.false_ne_true
        simp [readsLeaf, readsTree, he, hleaf, hcomposite]
    have hsingle := List.filter_congr fun item hmem => (hitem item hmem).1
    have hcomposite := List.filter_congr fun item hmem => (hitem item hmem).2
    exact ⟨hsingle, hcomposite, by rw [← hsingle, ← hcomposite]; rfl⟩
  · rcases ofText_error h with h | h <;> cases h

theorem composite_iff_tree_count :
    let ratio : SelectItem := ⟨"sum(a + b) / 2", some "sum", none⟩
    let count : SelectItem := ⟨"((count( * )))", some "count", some "n"⟩
    Expr.isComposite "((count( * )))" = false ∧ Expr.isComposite "sum(a + b) / 2" = true ∧
      [ratio, count].filter readsLeaf = [count] ∧
      Aggregation.ofItems [ratio, count] = [count, ratio].foldlM Aggregation.addItem {} := by
  intro ratio count
  obtain ⟨htext, hitems, -⟩ := composite_iff_tree
  have hratio : Expr.read "sum(a + b) / 2" = .ok (.binary .divide
      (.call "sum" (.binary .add (.leaf "a") (.leaf "b"))) (.leaf "2")) := rfl
  have hcount : Expr.read "((count( * )))" = .ok (.leaf "count(*)") := rfl
  have hboth : ∀ item ∈ [ratio, count], ∃ e, Expr.read item.expr = .ok e := by
    intro item hitem
    rcases List.mem_pair.mp hitem with rfl | rfl
    · exact ⟨_, hratio⟩
    · exact ⟨_, hcount⟩
  have hfilter : [ratio, count].filter readsLeaf = [count] ∧
      [ratio, count].filter readsTree = [ratio] := by
    simp [ratio, count, readsLeaf, readsTree, hratio, hcount, isLeaf]
  obtain ⟨-, -, haggregation⟩ := hitems [ratio, count] hboth
  rw [hfilter.1, hfilter.2] at haggregation
  refine ⟨(htext _ _ hcount).mpr ⟨_, rfl⟩, ?_, hfilter.1, haggregation⟩
  rw [← Bool.not_eq_false, htext _ _ hratio]
  rintro ⟨name, hname⟩
  cases hname

end DocQuery.Arithmetic
