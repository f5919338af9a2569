import DocQuery.Proofs.Arithmetic.Acceptance
import DocQuery.Proofs.Arithmetic.Composite

/-! Brackets around a whole text. Each pass does with the text inside what it does with the text
alone, above one more bracket on its stack, and the last bracket takes this one away. -/

namespace DocQuery.Arithmetic

/-! ### Splitting -/

theorem consOperand_append (c : Char) {p : Piece} (hp : p.isOperand = false) (ps qs : List Piece) :
    Piece.consOperand c (ps ++ p :: qs) = Piece.consOperand c ps ++ p :: qs := by
  cases ps with
  | nil =>
    cases p with
    | operand text => cases hp
    | _ => rfl
  | cons q ps => cases q <;> rfl

/-- A bracket cuts a text in two, unless it makes an operand of a star before it. -/
theorem splitFrom_append {d : Char} {p : Piece} {ps : List Piece} {front rest : List Char}
    (previous : Option Char) (hp : p.isOperand = false)
    (hsplit : ∀ q, Piece.splitFrom q (d :: rest) = p :: ps)
    (hstar : d = ')' → ¬ ['(', '*'] <:+ previous.toList ++ front) :
    Piece.splitFrom previous (front ++ d :: rest) = Piece.splitFrom previous front ++ p :: ps := by
  induction front generalizing previous with
  | nil => exact hsplit previous
  | cons c front ih =>
    have htail := ih (some c) fun hd hsuffix =>
      hstar hd (hsuffix.trans (List.suffix_append _ _))
    have hhead : c = '*' → previous = some '(' →
        ((front ++ d :: rest).head? = some ')' ↔ front.head? = some ')') := by
      rintro rfl rfl
      cases front with
      | nil =>
        have hd : d ≠ ')' := fun hd => hstar hd List.suffix_rfl
        simp [hd]
      | cons e front => rfl
    rw [List.cons_append, Piece.splitFrom, Piece.splitFrom, htail]
    by_cases hopen : c = '('
    · simp [hopen]
    by_cases hclose : c = ')'
    · simp [hclose]
    simp only [hopen, hclose, if_false]
    cases ArithOp.ofSymbol? c with
    | none => exact consOperand_append c hp _ _
    | some op =>
      have hiff : (c = '*' ∧ previous = some '(' ∧ (front ++ d :: rest).head? = some ')') ↔
          (c = '*' ∧ previous = some '(' ∧ front.head? = some ')') :=
        and_congr_right fun hc => and_congr_right fun hprevious => hhead hc hprevious
      by_cases hoperand : c = '*' ∧ previous = some '(' ∧ front.head? = some ')'
      · simp only [if_pos hoperand, if_pos (hiff.mpr hoperand)]
        exact consOperand_append c hp _ _
      · simp only [if_neg hoperand, if_neg fun h => hoperand (hiff.mp h), List.cons_append]

theorem exists_markCalls_append (b : Bool) (ps : List Piece) :
    ∃ b', ∀ qs, Piece.markCalls b (ps ++ qs) = Piece.markCalls b ps ++ Piece.markCalls b' qs := by
  induction ps generalizing b with
  | nil => exact ⟨b, fun qs => rfl⟩
  | cons p ps ih =>
    by_cases hp : p = .lparen
    · subst hp
      obtain ⟨b', htail⟩ := ih false
      exact ⟨b', fun qs => by cases b <;> simp [Piece.markCalls, htail]⟩
    · have hmark (rest : List Piece) :
          Piece.markCalls b (p :: rest) = p :: Piece.markCalls p.isOperand rest := by
        cases p with
        | lparen => exact absurd rfl hp
        | _ => rfl
      obtain ⟨b', htail⟩ := ih p.isOperand
      exact ⟨b', fun qs => by rw [List.cons_append, hmark, hmark, htail, List.cons_append]⟩

/-! ### Collapsing -/

section Collapse

variable {stack group rest result pieces : List Piece}

theorem collapseFrom_append {qs : List Piece}
    (h : Piece.collapseFrom stack (pieces ++ qs) = .ok result) :
    ∃ mid, Piece.collapseFrom stack pieces = .ok mid.reverse ∧
      Piece.collapseFrom mid qs = .ok result := by
  fun_induction Piece.collapseFrom stack pieces with
  | case1 stack => exact ⟨stack, rfl, h⟩
  | case2 stack pieces htake => simp [Piece.collapseFrom, htake] at h
  | case3 stack pieces group rest htake e hclose =>
    simp [Piece.collapseFrom, htake, hclose] at h
  | case4 stack pieces group rest htake next hclose ih =>
    exact ih (by simpa [Piece.collapseFrom, htake, hclose] using h)
  | case5 stack p pieces hp ih => exact ih (by simpa [Piece.collapseFrom] using h)

theorem takeGroup_append {depth : Nat} {taken : List Piece}
    (h : Piece.takeGroup depth group stack = some (taken, rest)) (below : List Piece) :
    Piece.takeGroup depth group (stack ++ below) = some (taken, rest ++ below) := by
  fun_induction Piece.takeGroup depth group stack with
  | case1 => cases h
  | case2 group stack =>
    cases h
    simp [Piece.takeGroup]
  | case3 depth group stack hdepth ih => simpa [Piece.takeGroup, hdepth] using ih h
  | case4 depth group stack ih => simpa [Piece.takeGroup] using ih h
  | case5 depth group p stack hopen hclose ih => simpa [Piece.takeGroup] using ih h

theorem closeGroup_of_plain (hplain : group.any Piece.isOperation = false)
    (hhead : rest.head? ≠ some .call) :
    Piece.closeGroup group rest =
      .ok (if (glued group).isEmpty then rest else .operand (glued group) :: rest) := by
  rw [Piece.closeGroup, if_neg (by simp [hplain])]
  dsimp only
  split
  · simp at hhead
  · simp at hhead
  · rfl

theorem closeGroup_append (h : Piece.closeGroup group rest = .ok result) (below : List Piece) :
    Piece.closeGroup group (rest ++ Piece.lparen :: below) =
      .ok (result ++ Piece.lparen :: below) := by
  have hunder (hhead : rest.head? ≠ some .call) :
      (rest ++ Piece.lparen :: below).head? ≠ some .call := by
    cases rest with
    | nil => simp
    | cons p rest => simpa using hhead
  rcases closeGroup_cases h with ⟨hoperation, rfl⟩ |
    ⟨hplain, ⟨name, under, rfl, rfl⟩ | ⟨hhead, ⟨hempty, hresult⟩ | ⟨hempty, hresult⟩⟩⟩
  · simp [Piece.closeGroup, hoperation]
  · simp [Piece.closeGroup, hplain, glued]
  · rw [closeGroup_of_plain hplain (hunder hhead), hempty, hresult]
    rfl
  · rw [closeGroup_of_plain hplain (hunder hhead), if_neg (by simpa using hempty), hresult]
    rfl

/-- An open bracket under the stack is not reached. -/
theorem collapseFrom_above (h : Piece.collapseFrom stack pieces = .ok result)
    (below qs : List Piece) :
    Piece.collapseFrom (stack ++ Piece.lparen :: below) (pieces ++ qs) =
      Piece.collapseFrom (result.reverse ++ Piece.lparen :: below) qs := by
  fun_induction Piece.collapseFrom stack pieces with
  | case1 stack =>
    cases h
    simp
  | case2 stack pieces htake => cases h
  | case3 stack pieces group rest htake e hclose => cases h
  | case4 stack pieces group rest htake next hclose ih =>
    have htaken := takeGroup_append htake (.lparen :: below)
    have hclosed := closeGroup_append hclose below
    simpa [Piece.collapseFrom, htaken, hclosed] using ih h
  | case5 stack p pieces hp ih => simpa [Piece.collapseFrom] using ih h

theorem mem_of_takeGroup {depth : Nat} {taken : List Piece}
    (h : Piece.takeGroup depth group stack = some (taken, rest)) {p : Piece}
    (hp : p ∈ taken ∨ p ∈ rest) : p ∈ group ∨ p ∈ stack := by
  fun_induction Piece.takeGroup depth group stack <;> grind

def Filled (pieces : List Piece) : Prop :=
  ∀ text, .operand text ∈ pieces → text ≠ []

theorem Filled.cons {p : Piece} (hp : ∀ text, p = .operand text → text ≠ [])
    (h : Filled pieces) : Filled (p :: pieces) := by
  intro text htext
  rcases List.mem_cons.mp htext with hfirst | htext
  · exact hp text hfirst.symm
  · exact h text htext

theorem Filled.closeGroup (hgroup : Filled group) (hrest : Filled rest)
    (h : Piece.closeGroup group rest = .ok result) : Filled result := by
  rcases closeGroup_cases h with ⟨-, rfl⟩ |
    ⟨-, ⟨name, under, rfl, rfl⟩ | ⟨-, ⟨-, rfl⟩ | ⟨hempty, rfl⟩⟩⟩
  · intro text htext
    have hmem : .operand text ∈ group ∨ .operand text ∈ rest := by simpa using htext
    exact hmem.elim (hgroup text) (hrest text)
  · exact .cons (by simp) fun text htext => hrest text (by simp [htext])
  · exact hrest
  · exact .cons (by simpa using hempty) hrest

theorem Filled.collapseFrom (hpieces : Filled pieces) (hstack : Filled stack)
    (h : Piece.collapseFrom stack pieces = .ok result) : Filled result := by
  fun_induction Piece.collapseFrom stack pieces with
  | case1 stack =>
    cases h
    simpa [Filled] using hstack
  | case2 stack pieces htake => cases h
  | case3 stack pieces group rest htake e hclose => cases h
  | case4 stack pieces group rest htake next hclose ih =>
    have hfrom : ∀ p, p ∈ group ∨ p ∈ rest → p ∈ stack := fun p hp => by
      simpa using mem_of_takeGroup htake hp
    have hgroup : Filled group := fun text htext => hstack text (hfrom _ (.inl htext))
    have hrest : Filled rest := fun text htext => hstack text (hfrom _ (.inr htext))
    exact ih (fun text htext => hpieces text (List.mem_cons_of_mem _ htext))
      (hgroup.closeGroup hrest hclose) h
  | case5 stack p pieces hp ih =>
    refine ih (fun text htext => hpieces text (List.mem_cons_of_mem _ htext)) (.cons ?_ hstack) h
    rintro text rfl
    exact hpieces text List.mem_cons_self

end Collapse

theorem filled_split (text : List Char) : Filled (Piece.markCalls false (Piece.split text)) := by
  have hmem : ∀ (b : Bool) (ps : List Piece) (name : List Char),
      .operand name ∈ Piece.markCalls b ps → .operand name ∈ ps := by
    intro b ps name
    fun_induction Piece.markCalls b ps <;> grind
  intro name hname
  exact ((bare_of_mem_split text _ (hmem false _ name hname)).2 name rfl).ne_nil

/-! ### Putting pieces in order -/

theorem takeWhile_append_open (ready : Piece → Bool) (hopen : ready .lparen = false)
    (waiting below : List Piece) :
    (waiting ++ Piece.lparen :: below).takeWhile ready = waiting.takeWhile ready ∧
      (waiting ++ Piece.lparen :: below).dropWhile ready =
        waiting.dropWhile ready ++ Piece.lparen :: below := by
  induction waiting with
  | nil => simp [hopen]
  | cons p waiting ih => by_cases hp : ready p = true <;> simp [hp, ih]

/-- An open bracket under what waits is not reached until it is closed. -/
theorem order_above {pieces waiting : List Piece} {ss : List Step}
    (h : Piece.order waiting pieces = .ok ss) (below qs : List Piece) :
    Piece.order (waiting ++ Piece.lparen :: below) (pieces ++ Piece.rparen :: qs) =
      (Piece.order below qs).map (ss ++ ·) := by
  -- No step looks below an open bracket, and the closing one makes what waits above it.
  have hready (n : Nat) : Piece.isReady n .lparen = false := rfl
  have hmade : ∀ (made : List Step) {rest : List Step} {r : Except ExprError (List Step)},
      r = (Piece.order below qs).map (rest ++ ·) →
        r.map (made ++ ·) = (Piece.order below qs).map (made ++ rest ++ ·) := by
    rintro made rest r rfl
    exact map_append_map _ made rest
  induction pieces generalizing waiting ss with
  | nil =>
    simp only [Piece.order] at h
    split at h
    · rename_i hall
      cases h
      have hspan := span_append (List.all_eq_true.mp hall)
        (show ∀ p ∈ (Piece.lparen :: below).head?, ¬ Piece.isNotOpen p = true by
          simp [Piece.isNotOpen])
      simp [Piece.order, hspan.1, hspan.2]
    · cases h
  | cons p pieces ih =>
    cases p with
    | operand text =>
      obtain ⟨rest, hrest, rfl⟩ := exists_of_map_eq_ok h
      exact hmade [.operand (String.ofList text)] (ih hrest)
    | lparen =>
      have hpushed : Piece.order (.lparen :: waiting) pieces = .ok ss := h
      exact ih hpushed
    | rparen =>
      obtain ⟨htake, hdrop⟩ :=
        takeWhile_append_open Piece.isNotOpen rfl waiting below
      simp only [Piece.order] at h
      split at h
      · cases h
      · rename_i first kept hkept
        obtain ⟨rest, hrest, rfl⟩ := exists_of_map_eq_ok h
        simp only [List.cons_append, Piece.order, htake, hdrop, hkept]
        exact hmade _ (ih hrest)
    | operator op =>
      obtain ⟨htake, hdrop⟩ := takeWhile_append_open _ (hready op.priority) waiting below
      obtain ⟨rest, hrest, rfl⟩ := exists_of_map_eq_ok h
      simp only [List.cons_append, Piece.order, Piece.priority, htake, hdrop]
      exact hmade _ (ih hrest)
    | call =>
      obtain ⟨htake, hdrop⟩ := takeWhile_append_open _ (hready 3) waiting below
      obtain ⟨rest, hrest, rfl⟩ := exists_of_map_eq_ok h
      simp only [List.cons_append, Piece.order, Piece.priority, htake, hdrop]
      exact hmade _ (ih hrest)

/-! ### Reading -/

/-- Brackets do not make an operand of a star at either end of what is read. -/
theorem star_of_read {text : String} {e : Expr} (h : Expr.read text = .ok e) :
    ¬ ['(', '*'] <:+ '(' :: Text.dropBlanks text.toList ∧
      ∀ rest, Text.dropBlanks text.toList ≠ '*' :: ')' :: rest := by
  obtain ⟨pieces, hcollapse, horder, hpile⟩ := exists_pile_of_read h
  rw [Piece.split] at hcollapse
  generalize Text.dropBlanks text.toList = solid at hcollapse ⊢
  refine ⟨fun hsuffix => ?_, ?_⟩
  · rcases List.suffix_cons_iff.mp hsuffix with hstar | ⟨front, rfl⟩
    · obtain rfl : solid = ['*'] := (List.cons.inj hstar).2.symm
      cases hcollapse
      cases Expr.ofSteps_program e ▸ congrArg Expr.ofSteps (Except.ok.inj horder)
    · -- The bracket before the star is still open at the end.
      have hsplit : Piece.splitFrom none (front ++ ['(', '*']) =
          Piece.splitFrom none front ++ [Piece.lparen, .operator .multiply] :=
        splitFrom_append none rfl (fun q => rfl) (by simp)
      obtain ⟨b, hmarked⟩ := exists_markCalls_append false (Piece.splitFrom none front)
      rw [hsplit, hmarked] at hcollapse
      obtain ⟨mid, -, hmid⟩ := collapseFrom_append hcollapse
      have htop : ∃ below, pieces.reverse = .operator .multiply :: .lparen :: below := by
        cases b with
        | false => exact ⟨_, by rw [← Except.ok.inj hmid, List.reverse_reverse]⟩
        | true => exact ⟨_, by rw [← Except.ok.inj hmid, List.reverse_reverse]⟩
      obtain ⟨below, htop⟩ := htop
      rw [htop] at hpile
      cases hpile with
      | operator hbelow => cases hbelow
  · rintro rest rfl
    cases hcollapse

theorem split_bracketed {text : List Char}
    (hend : ¬ ['(', '*'] <:+ '(' :: Text.dropBlanks text)
    (hstart : ∀ rest, Text.dropBlanks text ≠ '*' :: ')' :: rest) :
    Piece.split ('(' :: (text ++ [')'])) = .lparen :: (Piece.split text ++ [Piece.rparen]) := by
  have hblanks : Text.dropBlanks ('(' :: (text ++ [')'])) =
      '(' :: (Text.dropBlanks text ++ [')']) := by
    have hbrackets : isBlank '(' = false ∧ isBlank ')' = false := by decide
    simp [Text.dropBlanks, hbrackets]
  have hclose : Piece.splitFrom (some '(') (Text.dropBlanks text ++ [')']) =
      Piece.splitFrom (some '(') (Text.dropBlanks text) ++ [Piece.rparen] :=
    splitFrom_append _ rfl (fun q => rfl) fun _ => hend
  rw [Piece.split, hblanks, splitFrom_open, hclose, splitFrom_opened hstart]
  rfl

theorem collapse_bracketed {ps pieces : List Piece} (hpile : Pile pieces.reverse)
    (h : Piece.collapse (Piece.markCalls false ps) = .ok pieces) :
    Piece.collapse (Piece.markCalls false (.lparen :: (ps ++ [Piece.rparen]))) =
      (Piece.closeGroup pieces []).map List.reverse := by
  obtain ⟨b, hmarked⟩ := exists_markCalls_append false ps
  have htake : Piece.takeGroup 0 [] (pieces.reverse ++ [Piece.lparen]) = some (pieces, []) := by
    rw [hpile.takeGroup_eq]
    simp [Piece.takeGroup]
  have habove := collapseFrom_above h [] [.rparen]
  rw [List.nil_append] at habove
  simp only [Piece.markCalls, Bool.false_eq_true, if_false, hmarked]
  rw [Piece.collapse, Piece.collapseFrom, habove, Piece.collapseFrom, htake]
  · cases hgroup : Piece.closeGroup pieces [] with
    | error error => simp [hgroup, Except.map]
    | ok stack => simp [hgroup, Except.map, Piece.collapseFrom]
  · simp

theorem read_bracketed {text : String} {e : Expr} (h : Expr.read text = .ok e) :
    Expr.read (String.ofList ('(' :: (text.toList ++ [')']))) = .ok e := by
  obtain ⟨hend, hstart⟩ := star_of_read h
  obtain ⟨pieces, hcollapse, horder, hpile⟩ := exists_pile_of_read h
  have hsteps : Step.ofText (String.ofList ('(' :: (text.toList ++ [')']))) = .ok e.program := by
    rw [Step.ofText, String.toList_ofList, split_bracketed hend hstart,
      collapse_bracketed hpile hcollapse]
    by_cases hoperation : pieces.any Piece.isOperation = true
    · have hgroup : Piece.closeGroup pieces [] =
          .ok (.rparen :: (pieces.reverse ++ [Piece.lparen])) := by
        rw [Piece.closeGroup, if_pos hoperation]
        rfl
      have hbrackets := order_above horder [] []
      rw [hgroup]
      simpa [Except.map, bind, Except.bind, Piece.order] using hbrackets
    · -- A leaf loses its brackets at once.
      rw [Bool.not_eq_true] at hoperation
      obtain ⟨name, rfl, rfl⟩ := exists_operand_of_order hpile hoperation horder
      have hname : name.isEmpty = false := by
        have hfilled := (filled_split text.toList).collapseFrom (by simp [Filled]) hcollapse
        simpa using hfilled name (by simp)
      simp [Piece.closeGroup, Piece.isOperation, Piece.text, hname, Except.map, bind, Except.bind,
        Piece.order, Expr.program]
  rw [Expr.read, hsteps]
  exact e.ofSteps_program

def wrapped (n : Nat) (text : String) : String :=
  String.ofList (List.replicate n '(' ++ text.toList ++ List.replicate n ')')

/-- Brackets around the whole of a text that is read do not change what is read. -/
theorem read_wrapped (n : Nat) {text : String} {e : Expr} (h : Expr.read text = .ok e) :
    Expr.read (wrapped n text) = .ok e := by
  induction n with
  | zero => simpa [wrapped] using h
  | succ n ih =>
    have hsucc : wrapped (n + 1) text =
        String.ofList ('(' :: ((wrapped n text).toList ++ [')'])) := by
      rw [wrapped, wrapped, String.toList_ofList, List.replicate_succ (a := '('),
        List.replicate_succ' (a := ')')]
      simp
    rw [hsucc]
    exact read_bracketed ih

/-- Groups that touch, empty brackets and a call inside them, all in two more pairs of brackets. -/
theorem read_wrapped_touching :
    Expr.read "*(f(a - 1))( )(b)" =
        .ok (.binary .multiply (.call "f" (.binary .subtract (.leaf "a") (.leaf "1")))
          (.leaf "b")) ∧
      Expr.read "((*(f(a - 1))( )(b)))" =
        .ok (.binary .multiply (.call "f" (.binary .subtract (.leaf "a") (.leaf "1")))
          (.leaf "b")) := by
  have hread : Expr.read "*(f(a - 1))( )(b)" = .ok (.binary .multiply
      (.call "f" (.binary .subtract (.leaf "a") (.leaf "1"))) (.leaf "b")) := by cbv
  have htext : wrapped 2 "*(f(a - 1))( )(b)" = "((*(f(a - 1))( )(b)))" := by cbv
  exact ⟨hread, htext ▸ read_wrapped 2 hread⟩

end DocQuery.Arithmetic
