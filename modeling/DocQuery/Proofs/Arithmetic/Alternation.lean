import DocQuery.Proofs.Arithmetic.Operands
import Mathlib.Data.List.Chain

/-! Operands and operators that alternate. What is read has one operand more than it has operators
and calls, and where no bracket touches an operand or a group behind it, this leaves only one order
for them. -/

namespace DocQuery.Arithmetic

/-! ### Places -/

/-- What stands in front of a place: nothing or an operator, an opening bracket, an operand, or a
closing bracket. -/
inductive Place where
  | vacant
  | opened
  | named
  | closed

namespace Place

def isNamed : Place → Bool
  | named => true
  | _ => false

def after : Piece → Place
  | .operand _ => named
  | .lparen => opened
  | .rparen => closed
  | _ => vacant

/-- How many operands there are at the place for its next operator. -/
def held : Place → Int
  | named => 1
  | closed => 1
  | _ => 0

/-- No two operands touch here, and no brackets with nothing inside. -/
def isApart : Place → Piece → Bool
  | _, .call => false
  | opened, .rparen => false
  | named, .operand _ => false
  | closed, .operand _ => false
  | closed, .lparen => false
  | _, _ => true

/-- The piece can stand here in an infix expression. -/
def admits : Place → Piece → Bool
  | vacant, .operand _ => true
  | vacant, .lparen => true
  | opened, .operand _ => true
  | opened, .lparen => true
  | named, .lparen => true
  | named, .operator _ => true
  | named, .rparen => true
  | closed, .operator _ => true
  | closed, .rparen => true
  | _, _ => false

end Place

def keepsApart (place : Place) : List Piece → Bool
  | [] => true
  | p :: ps => place.isApart p && keepsApart (.after p) ps

/-- From the place on, operands and operators alternate, and an operand is the last of them. -/
def alternates (place : Place) : List Piece → Bool
  | [] => place.held == 1
  | p :: ps => place.admits p && alternates (.after p) ps

/-! ### Weights -/

/-- Operands weigh `a` and brackets `b`, and what takes one of them away weighs the opposite. -/
def weight (a b : Int) : Piece → Int
  | .operand _ => a
  | .operator _ => -a
  | .call => -a
  | .lparen => b
  | .rparen => -b

def total (a b : Int) : List Piece → Int
  | [] => 0
  | p :: ps => weight a b p + total a b ps

section Weights

variable {a b : Int}

@[simp] theorem total_nil : total a b [] = 0 := rfl

@[simp] theorem total_cons (p : Piece) (ps : List Piece) :
    total a b (p :: ps) = weight a b p + total a b ps := rfl

@[simp] theorem total_append (ps qs : List Piece) :
    total a b (ps ++ qs) = total a b ps + total a b qs := by
  induction ps with
  | nil => simp
  | cons p ps ih => simp [ih, Int.add_assoc]

@[simp] theorem total_reverse (ps : List Piece) : total a b ps.reverse = total a b ps := by
  induction ps with
  | nil => rfl
  | cons p ps ih =>
    simp [ih]
    omega

def stepWeight (a : Int) : Step → Int
  | .operand _ => a
  | .operator _ => -a
  | .call => -a

def stepTotal (a : Int) : List Step → Int
  | [] => 0
  | s :: ss => stepWeight a s + stepTotal a ss

theorem stepTotal_append (ss ts : List Step) :
    stepTotal a (ss ++ ts) = stepTotal a ss + stepTotal a ts := by
  induction ss with
  | nil => simp [stepTotal]
  | cons s ss ih => simp [stepTotal, ih, Int.add_assoc]

theorem stepTotal_program (e : Expr) : stepTotal a e.program = a := by
  induction e with
  | leaf text => simp [Expr.program, stepTotal, stepWeight]
  | binary op left right ihl ihr =>
    simp only [Expr.program, stepTotal_append, ihl, ihr, stepTotal, stepWeight]
    omega
  | call function argument ih =>
    simp only [Expr.program, List.cons_append, stepTotal_append, stepTotal, ih, stepWeight]
    omega

end Weights

/-! ### Counting -/

/-- The operands that are there and those to come, less the operators and calls to come. -/
def surplus (place : Place) (ps : List Piece) : Int :=
  total 1 0 (Piece.markCalls place.isNamed ps) + place.held

theorem surplus_cons {place : Place} {p : Piece} (h : place.isApart p = true) (ps : List Piece) :
    surplus place (p :: ps) = surplus (.after p) ps - if place.admits p then 0 else 1 := by
  cases p <;> cases place <;> cases h <;>
    simp [surplus, Piece.markCalls, Piece.isOperand, Place.isNamed, Place.after, Place.held,
      Place.admits, weight] <;> omega

theorem surplus_le {place : Place} {ps : List Piece} (h : keepsApart place ps = true) :
    surplus place ps ≤ 1 ∧ (surplus place ps = 1 → alternates place ps = true) := by
  induction ps generalizing place with
  | nil => cases place <;> simp [surplus, Piece.markCalls, Place.held, alternates]
  | cons p ps ih =>
    obtain ⟨hp, hps⟩ := Bool.and_eq_true_iff.mp h
    obtain ⟨hle, heq⟩ := ih hps
    rw [surplus_cons hp, alternates]
    by_cases hadmits : place.admits p = true
    · rw [if_pos hadmits, hadmits, Bool.true_and]
      exact ⟨by omega, fun h => heq (by omega)⟩
    · -- A piece out of place takes one operand too many, and no later one makes up for it.
      rw [if_neg hadmits]
      exact ⟨by omega, fun h => by omega⟩

/-! ### Putting pieces in order -/

theorem isOperation_cases {p : Piece} (h : p.isOperation = true) :
    (∃ op, p = .operator op) ∨ p = .call := by
  cases p with
  | operator op => exact .inl ⟨op, rfl⟩
  | call => exact .inr rfl
  | _ => cases h

theorem stepTotal_filterMap_cons {a : Int} {p : Piece} (hp : p.isOperation = true)
    (waiting : List Piece) :
    stepTotal a ((p :: waiting).filterMap Piece.step?) =
      weight a 0 p + stepTotal a (waiting.filterMap Piece.step?) := by
  obtain ⟨op, rfl⟩ | rfl := isOperation_cases hp
  · rfl
  · rfl

theorem total_of_order {a : Int} {pieces waiting : List Piece} {ss : List Step}
    (h : Piece.order waiting pieces = .ok ss) :
    stepTotal a ss = stepTotal a (waiting.filterMap Piece.step?) + total a 0 pieces := by
  induction pieces generalizing waiting ss with
  | nil =>
    simp only [Piece.order] at h
    split at h
    · cases h
      simp
    · cases h
  | cons p pieces ih =>
    rcases order_cons_cases h with ⟨text, rest, rfl, hrest, rfl⟩ | ⟨rfl, hrest⟩ |
      ⟨ready, kept, rest, rfl, -, rfl, hrest, rfl⟩ | ⟨ready, kept, rest, rfl, -, hp, hrest, rfl⟩
    · simp only [stepTotal, stepWeight, total_cons, weight, ih hrest]
      omega
    · simpa [weight, List.filterMap_cons, Piece.step?] using ih hrest
    · simp only [stepTotal_append, List.filterMap_append, total_cons, weight, ih hrest]
      simp [List.filterMap_cons, Piece.step?]
      omega
    · simp only [stepTotal_append, List.filterMap_append, total_cons, ih hrest,
        stepTotal_filterMap_cons hp]
      omega

theorem nesting_of_order {pieces waiting : List Piece} {ss : List Step}
    (h : Piece.order waiting pieces = .ok ss) :
    (waiting.count .lparen : Int) + total 0 1 pieces = 0 := by
  induction pieces generalizing waiting ss with
  | nil =>
    simp only [Piece.order] at h
    split at h
    · rename_i hall
      have hopen : .lparen ∉ waiting := fun hmem =>
        absurd (List.all_eq_true.mp hall _ hmem) (by decide)
      simp [List.count_eq_zero.mpr hopen]
    · cases h
  | cons p pieces ih =>
    rcases order_cons_cases h with ⟨text, rest, rfl, hrest, rfl⟩ | ⟨rfl, hrest⟩ |
      ⟨ready, kept, rest, rfl, hopen, rfl, hrest, rfl⟩ |
      ⟨ready, kept, rest, rfl, hopen, hp, hrest, rfl⟩
    · simpa [weight] using ih hrest
    · have htail := ih hrest
      simp only [List.count_cons_self, total_cons, weight] at htail ⊢
      omega
    · have htail := ih hrest
      simp only [List.count_append, List.count_eq_zero.mpr hopen, List.count_cons_self, total_cons,
        weight]
      omega
    · have htail := ih hrest
      have hweight : weight 0 1 p = 0 ∧ p ≠ .lparen := by
        obtain ⟨op, rfl⟩ | rfl := isOperation_cases hp <;> simp [weight]
      rw [List.count_cons_of_ne hweight.2] at htail
      simp only [List.count_append, List.count_eq_zero.mpr hopen, total_cons, hweight.1]
      omega

/-! ### Collapsing -/

theorem Pile.nesting_eq {pile : List Piece} (h : Pile pile) : total 0 1 pile = 0 := by
  induction h with
  | nil => rfl
  | operand _ _ ih => simpa [weight] using ih
  | operator _ ih => simpa [weight] using ih
  | call _ _ ih => simpa [weight] using ih
  | block _ _ _ ihi ihb => simp [weight, ihi, ihb]

theorem Stacked.nesting_nonneg {stack : List Piece} (h : Stacked stack) :
    0 ≤ total 0 1 stack := by
  induction h with
  | pile h => exact Int.le_of_eq h.nesting_eq.symm
  | «open» h _ ih =>
    rw [total_append, h.nesting_eq, total_cons, weight]
    omega

/-- What may lie on what: no operand and no group lies on an operand. -/
def LiesOn (p below : Piece) : Prop :=
  p.isOperand = true ∨ p = .lparen → below.isOperand = false

/-- A stack in which nothing touches, in front of a place. -/
structure Ready (place : Place) (stack : List Piece) : Prop where
  stacked : Stacked stack
  apart : stack.IsChain LiesOn
  solid : ∀ text, .operand text ∈ stack → text ≠ []
  opened : stack.head? = some .lparen → place = .opened
  filled : ∀ text, stack.head? = some (.operand text) → place.held = 1
  name : place = .named → ∃ name below, stack = .operand name :: below ∧ Bare name

theorem ready_nil : Ready .vacant [] where
  stacked := .pile .nil
  apart := .nil
  solid := by simp
  opened := by simp
  filled := by simp
  name := by simp

namespace Ready

variable {place : Place} {stack group rest result : List Piece}

theorem liesOn (h : Ready place stack) (hheld : place.held = 0) (p : Piece) :
    ∀ below ∈ stack.head?, LiesOn p below := by
  intro below hbelow _
  cases below with
  | operand text =>
    have hone := h.filled text hbelow
    omega
  | _ => rfl

theorem push (h : Ready place stack) {p : Piece} (hstacked : Stacked (p :: stack))
    (hlies : ∀ below ∈ stack.head?, LiesOn p below)
    (hbare : ∀ text, p = .operand text → Bare text) : Ready (.after p) (p :: stack) where
  stacked := hstacked
  apart := h.apart.cons hlies
  solid := by
    intro text htext
    rcases List.mem_cons.mp htext with hp | hmem
    · exact (hbare text hp.symm).ne_nil
    · exact h.solid text hmem
  opened := by
    intro hhead
    cases hhead
    rfl
  filled := by
    intro text hhead
    cases hhead
    rfl
  name := by
    intro hnamed
    cases p with
    | operand text => exact ⟨text, stack, rfl, hbare text rfl⟩
    | _ => cases hnamed

theorem operand (h : Ready place stack) {text : List Char} (htext : Bare text)
    (hplace : place.isApart (.operand text) = true) : Ready .named (.operand text :: stack) := by
  have hheld : place.held = 0 := by
    cases place with
    | named => cases hplace
    | closed => cases hplace
    | _ => rfl
  refine h.push (h.stacked.push fun _ => .operand htext.tidy) (h.liesOn hheld _) ?_
  intro name hname
  cases hname
  exact htext

theorem operator (h : Ready place stack) (op : ArithOp) : Ready .vacant (.operator op :: stack) :=
  h.push (h.stacked.push fun _ => .operator) (fun _ _ hlies => by simp [Piece.isOperand] at hlies)
    (by simp)

theorem bracket (h : Ready place stack) (hheld : place.held = 0) :
    Ready .opened (.lparen :: stack) :=
  h.push (.open .nil h.stacked) (h.liesOn hheld _) (by simp)

theorem call (h : Ready .named stack) : Ready .opened (.lparen :: .call :: stack) := by
  obtain ⟨name, below, rfl, hname⟩ := h.name rfl
  have hcall : Ready .vacant (.call :: .operand name :: below) :=
    h.push (h.stacked.call hname) (fun _ _ hlies => by simp [Piece.isOperand] at hlies) (by simp)
  exact hcall.bracket rfl

theorem exists_operand (h : Ready place stack) (hplace : place.isApart .rparen = true)
    (htake : Piece.takeGroup 0 [] stack = some (group, rest))
    (hplain : group.any Piece.isOperation = false) :
    ∃ text, stack = .operand text :: .lparen :: rest ∧ group = [.operand text] ∧ text ≠ [] := by
  obtain ⟨hstack, hpile, -⟩ := h.stacked.takeGroup_eq htake
  have hoperand := isOperand_of_mem_pile hpile (by simpa using hplain)
  have hchain := h.apart
  rw [hstack] at hchain
  obtain ⟨front, hfront⟩ : ∃ front, group.reverse = front := ⟨_, rfl⟩
  rw [hfront] at hstack hoperand hchain
  rcases front with _ | ⟨p, _ | ⟨q, front⟩⟩
  · -- An empty group has its bracket on top.
    have hopened := h.opened (by rw [hstack]; rfl)
    rw [hopened] at hplace
    cases hplace
  · cases p with
    | operand text =>
      refine ⟨text, hstack, List.reverse_eq_iff.mp hfront, h.solid text ?_⟩
      rw [hstack]
      exact List.mem_cons_self
    | _ => simpa [Piece.isOperand] using hoperand _ List.mem_cons_self
  · have hlies : LiesOn p q := (List.isChain_cons_cons.mp hchain).1
    have hq := hlies (.inl (hoperand p (by simp)))
    rw [hoperand q (by simp)] at hq
    cases hq

theorem fuse {text : List Char} {below : List Piece} (hstacked : Stacked (.operand text :: below))
    (happart : below.IsChain LiesOn) (hlies : ∀ p ∈ below.head?, p.isOperand = false)
    (hsolid : ∀ name, .operand name ∈ below → name ≠ []) (htext : text ≠ []) :
    Ready .closed (.operand text :: below) where
  stacked := hstacked
  apart := happart.cons fun p hp _ => hlies p hp
  solid := by
    intro name hname
    rcases List.mem_cons.mp hname with hname | hname
    · cases hname
      exact htext
    · exact hsolid name hname
  opened := by simp
  filled := by simp [Place.held]
  name := by simp

theorem close (h : Ready place stack) (hplace : place.isApart .rparen = true)
    (htake : Piece.takeGroup 0 [] stack = some (group, rest))
    (hclose : Piece.closeGroup group rest = .ok result) :
    Ready .closed result ∧ ∀ a b, total a b result = total a b stack - b := by
  obtain ⟨hstacked, -⟩ := h.stacked.close_cases htake hclose
  unfold Piece.closeGroup at hclose
  split at hclose
  · -- A group with an operation stays on the stack, between its brackets.
    rename_i hoperation
    obtain ⟨hstack, -⟩ := h.stacked.takeGroup_eq htake
    cases hclose
    rw [List.cons_append, ← hstack] at hstacked ⊢
    refine ⟨h.push hstacked (fun _ _ hlies => by simp [Piece.isOperand] at hlies) (by simp), ?_⟩
    intro a b
    simp only [total_cons, weight]
    omega
  · -- Any other becomes one operand, together with the name of a call.
    rename_i hplain
    obtain ⟨text, rfl, rfl, htext⟩ := h.exists_operand hplace htake (by simpa using hplain)
    have hcontent : [Piece.operand text].flatMap Piece.text = text := List.append_nil text
    simp only [hcontent] at hclose
    obtain ⟨hlies, hrest⟩ := List.isChain_cons.mp (List.isChain_cons.mp h.apart).2
    split at hclose
    · rename_i name below
      cases hclose
      have hname : (Piece.operand name :: below).IsChain LiesOn := hrest.tail
      refine ⟨fuse hstacked hname.tail (fun p hp => hname.rel_head? hp (.inl rfl)) ?_ (by simp), ?_⟩
      · intro other hmem
        exact h.solid other (by simp [hmem])
      · intro a b
        simp only [total_cons, weight]
        omega
    · cases hclose
    · have hnonempty : text.isEmpty = false := by simpa using htext
      rw [hnonempty, if_neg Bool.false_ne_true] at hclose
      cases hclose
      refine ⟨fuse hstacked hrest (fun p hp => hlies p hp (.inr rfl)) ?_ htext, ?_⟩
      · intro other hmem
        exact h.solid other (by simp [hmem])
      · intro a b
        simp only [total_cons, weight]
        omega

theorem nesting_pos (h : Ready place stack)
    (htake : Piece.takeGroup 0 [] stack = some (group, rest)) : 0 < total 0 1 stack := by
  obtain ⟨hstack, hpile, hrest⟩ := h.stacked.takeGroup_eq htake
  have hgroup := hpile.nesting_eq
  have hbelow := hrest.nesting_nonneg
  rw [hstack, total_append, total_cons, weight]
  omega

theorem step (h : Ready place stack) {p : Piece} {pieces : List Piece}
    (hbare : ∀ name, p = .operand name → Bare name) (hplace : place.isApart p = true)
    (hcollapse : Piece.collapseFrom stack (Piece.markCalls place.isNamed (p :: pieces)) =
      .ok result) :
    ∃ next, Ready (.after p) next ∧
      Piece.collapseFrom next (Piece.markCalls (Place.after p).isNamed pieces) = .ok result ∧
      (p = .rparen → 0 < total 0 1 stack) ∧
      ∀ a b, total a b next + total a b (Piece.markCalls (Place.after p).isNamed pieces) =
        total a b stack + total a b (Piece.markCalls place.isNamed (p :: pieces)) := by
  cases p with
  | operand text =>
    refine ⟨_, h.operand (hbare text rfl) hplace, hcollapse, by simp, fun a b => ?_⟩
    simp only [Piece.markCalls, Piece.isOperand, Place.after, Place.isNamed, total_cons]
    omega
  | operator op =>
    refine ⟨_, h.operator op, hcollapse, by simp, fun a b => ?_⟩
    simp only [Piece.markCalls, Piece.isOperand, Place.after, Place.isNamed, total_cons]
    omega
  | call => cases place <;> cases hplace
  | lparen =>
    cases place with
    | named =>
      refine ⟨_, h.call, hcollapse, by simp, fun a b => ?_⟩
      simp only [Piece.markCalls, Place.after, Place.isNamed, total_cons, if_true]
      omega
    | closed => cases hplace
    | _ =>
      refine ⟨_, h.bracket rfl, hcollapse, by simp, fun a b => ?_⟩
      simp [Piece.markCalls, Place.after, Place.isNamed]
      omega
  -- Only a closing bracket takes something off the stack.
  | rparen =>
    simp only [Piece.markCalls, Piece.collapseFrom] at hcollapse
    split at hcollapse
    · cases hcollapse
    · rename_i group rest htake
      split at hcollapse
      · cases hcollapse
      · rename_i next hclose
        obtain ⟨hnext, htotal⟩ := h.close hplace htake hclose
        refine ⟨next, hnext, hcollapse, fun _ => h.nesting_pos htake, fun a b => ?_⟩
        simp only [Piece.markCalls, Piece.isOperand, Place.after, Place.isNamed, total_cons, weight,
          htotal]
        omega

end Ready

/-- Every bracket that closes has one that is open, with `depth` of them to begin with, and all are
closed in the end. -/
def closes : Nat → List Piece → Bool
  | depth, [] => depth == 0
  | depth, .lparen :: ps => closes (depth + 1) ps
  | 0, .rparen :: _ => false
  | depth + 1, .rparen :: ps => closes depth ps
  | depth, _ :: ps => closes depth ps

section Collapse

variable {place : Place} {pieces stack result : List Piece}

theorem total_collapseFrom
    (hpieces : ∀ p ∈ pieces, p ≠ .call ∧ ∀ name, p = .operand name → Bare name)
    (hplace : keepsApart place pieces = true) (h : Ready place stack)
    (hcollapse : Piece.collapseFrom stack (Piece.markCalls place.isNamed pieces) = .ok result)
    (a b : Int) :
    total a b result = total a b stack + total a b (Piece.markCalls place.isNamed pieces) := by
  induction pieces generalizing place stack with
  | nil =>
    cases hcollapse
    simp [Piece.markCalls]
  | cons p pieces ih =>
    obtain ⟨hp, hrest⟩ := List.forall_mem_cons.mp hpieces
    obtain ⟨hfirst, hplace⟩ := Bool.and_eq_true_iff.mp hplace
    obtain ⟨next, hnext, hcollapse, -, htotal⟩ := h.step hp.2 hfirst hcollapse
    rw [ih hrest hplace hnext hcollapse, htotal]

theorem nesting_markCalls (b : Bool) (pieces : List Piece) :
    total 0 1 (Piece.markCalls b pieces) = total 0 1 pieces := by
  induction pieces generalizing b with
  | nil => rfl
  | cons p pieces ih =>
    cases p with
    | lparen => cases b <;> simp [Piece.markCalls, weight, ih]
    | _ => simp [Piece.markCalls, ih]

theorem closes_of_collapseFrom {depth : Nat}
    (hpieces : ∀ p ∈ pieces, p ≠ .call ∧ ∀ name, p = .operand name → Bare name)
    (hplace : keepsApart place pieces = true) (h : Ready place stack)
    (hcollapse : Piece.collapseFrom stack (Piece.markCalls place.isNamed pieces) = .ok result)
    (hdepth : total 0 1 stack = depth) (hend : total 0 1 result = 0) :
    closes depth pieces = true := by
  induction pieces generalizing place stack depth with
  | nil =>
    cases hcollapse
    rw [total_reverse] at hend
    have hzero : depth = 0 := by omega
    simp [closes, hzero]
  | cons p pieces ih =>
    obtain ⟨hp, hrest⟩ := List.forall_mem_cons.mp hpieces
    obtain ⟨hfirst, hplace⟩ := Bool.and_eq_true_iff.mp hplace
    obtain ⟨next, hnext, hcollapse, hpos, htotal⟩ := h.step hp.2 hfirst hcollapse
    have hnesting := htotal 0 1
    rw [nesting_markCalls, nesting_markCalls, total_cons] at hnesting
    cases p with
    | lparen =>
      simp only [weight] at hnesting
      exact ih hrest hplace hnext hcollapse (by omega)
    | rparen =>
      simp only [weight] at hnesting
      have hopen := hpos rfl
      obtain ⟨k, rfl⟩ := Nat.exists_eq_add_of_le' (show 1 ≤ depth by omega)
      exact ih hrest hplace hnext hcollapse (by omega)
    | operand text =>
      simp only [weight] at hnesting
      exact ih hrest hplace hnext hcollapse (by omega)
    | operator op =>
      simp only [weight] at hnesting
      exact ih hrest hplace hnext hcollapse (by omega)
    | call => exact absurd rfl hp.1

end Collapse

theorem alternates_of_read {text : String} {e : Expr} (h : Expr.read text = .ok e)
    (happart : keepsApart .vacant (Piece.split text.toList) = true) :
    alternates .vacant (Piece.split text.toList) = true ∧
      closes 0 (Piece.split text.toList) = true := by
  obtain ⟨pieces, hcollapse, horder⟩ := exists_pieces_of_read h
  have hbare := bare_of_mem_split text.toList
  have htotal := total_collapseFrom hbare happart ready_nil hcollapse 1 0
  have hone : 1 = total 1 0 pieces := by
    simpa [stepTotal, stepTotal_program] using total_of_order (a := 1) horder
  have hsurplus : surplus .vacant (Piece.split text.toList) = 1 := by
    rw [total_nil, Int.zero_add, ← hone] at htotal
    rw [surplus, ← htotal]
    rfl
  have hnesting : total 0 1 pieces = 0 := by simpa using nesting_of_order horder
  exact ⟨(surplus_le happart).2 hsurplus,
    closes_of_collapseFrom hbare happart ready_nil hcollapse rfl hnesting⟩

end DocQuery.Arithmetic
