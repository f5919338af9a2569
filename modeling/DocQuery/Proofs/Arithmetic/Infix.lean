import DocQuery.Arithmetic.Reader
import DocQuery.Proofs.Text.Trim

/-! Arithmetic terms and their infix printings. A printing has brackets at least where priorities
and association from the left need them, and any brackets and blanks beyond these. -/

namespace DocQuery.Arithmetic

def delimiters : List Char :=
  ['(', ')', '+', '-', '*', '/', '%']

def isAtomChar (c : Char) : Bool :=
  !isBlank c && !delimiters.contains c

structure Atom where
  text : List Char
  ne_nil : text ≠ []
  plain : ∀ c ∈ text, isAtomChar c = true

inductive Term where
  | atom (a : Atom)
  /-- What `count(*)` counts; it is written between brackets only. -/
  | star
  | binary (op : ArithOp) (left right : Term)
  | call (name : Atom) (argument : Term)

/-- A call of a leaf is a leaf again, and any other call is a node. -/
def applied (name : List Char) : Expr → Expr
  | .leaf text => .leaf (String.ofList (name ++ '(' :: text.toList ++ [')']))
  | e => .call (String.ofList name) e

def Term.expr : Term → Expr
  | atom a => .leaf (String.ofList a.text)
  | star => .leaf "*"
  | binary op s t => .binary op s.expr t.expr
  | call name t => applied name.text t.expr

/-- How tightly an operator binds: products come before sums. -/
def tightness : ArithOp → Nat
  | .add => 1
  | .subtract => 1
  | .multiply => 2
  | .divide => 2
  | .mod => 2

theorem tightness_eq_priority (op : ArithOp) : tightness op = op.priority := by
  cases op <;> rfl

/-- The printings of a term in which every operator outside brackets binds at least as tightly as
the given number says. -/
inductive Printing : Nat → Term → Type where
  | atom {n : Nat} (a : Atom) : Printing n (.atom a)
  | star {n : Nat} : Printing n .star
  | binary {n : Nat} {s t : Term} (op : ArithOp) (loose : n ≤ tightness op)
    (left : Printing (tightness op) s) (right : Printing (tightness op + 1) t) :
    Printing n (.binary op s t)
  | call {n : Nat} {t : Term} (name : Atom) (argument : Printing 0 t) : Printing n (.call name t)
  | callStar {n : Nat} (name : Atom) : Printing n (.call name .star)
  | group {n : Nat} {t : Term} (p : Printing 0 t) : Printing n t

namespace Printing

def tokens {n : Nat} {t : Term} : Printing n t → List Piece
  | atom a => [.operand a.text]
  | star => [.lparen, .operand ['*'], .rparen]
  | binary op _ left right => left.tokens ++ Piece.operator op :: right.tokens
  | call name argument => .operand name.text :: .lparen :: (argument.tokens ++ [Piece.rparen])
  | callStar name => [.operand name.text, .lparen, .operand ['*'], .rparen]
  | group p => .lparen :: (p.tokens ++ [Piece.rparen])

end Printing

/-- The characters of a token. -/
def written : Piece → List Char
  | .operand text => text
  | .operator .add => ['+']
  | .operator .subtract => ['-']
  | .operator .multiply => ['*']
  | .operator .divide => ['/']
  | .operator .mod => ['%']
  | .call => []
  | .lparen => ['(']
  | .rparen => [')']

/-- The tokens one after the other, with the blanks before each of them and after the last. -/
def spell (gap : Nat → Text.Blanks) : List Piece → List Char
  | [] => (gap 0).val
  | p :: ps => (gap 0).val ++ written p ++ spell (fun i => gap (i + 1)) ps

def glued (ps : List Piece) : List Char :=
  ps.flatMap Piece.text

theorem written_eq_text (p : Piece) : written p = p.text := by
  cases p with
  | operator op => cases op <;> rfl
  | _ => rfl

theorem flatMap_written (ps : List Piece) : ps.flatMap written = glued ps :=
  congrArg ps.flatMap (funext written_eq_text)

@[simp] theorem glued_nil : glued [] = [] := rfl

@[simp] theorem glued_cons (p : Piece) (ps : List Piece) : glued (p :: ps) = p.text ++ glued ps :=
  List.flatMap_cons

@[simp] theorem glued_append (ps qs : List Piece) : glued (ps ++ qs) = glued ps ++ glued qs :=
  List.flatMap_append

/-! ### Blanks -/

theorem dropBlanks_spell {ps : List Piece} (h : ∀ p ∈ ps, ∀ c ∈ p.text, isBlank c = false)
    (gap : Nat → Text.Blanks) : Text.dropBlanks (spell gap ps) = glued ps := by
  induction ps generalizing gap with
  | nil => exact Text.dropBlanks_blanks (gap 0)
  | cons p ps ih =>
    have hp := Text.dropBlanks_of_solid (h p (by simp))
    have hps := ih (fun q hq => h q (List.mem_cons_of_mem p hq)) fun i => gap (i + 1)
    simp [spell, written_eq_text, Text.dropBlanks_append, Text.dropBlanks_blanks, hp, hps]

theorem isBlank_delimiter : ∀ c ∈ delimiters, isBlank c = false := by
  decide

theorem symbol_mem_delimiters (op : ArithOp) : op.symbol ∈ delimiters := by
  cases op <;> decide

theorem Atom.not_blank (a : Atom) : ∀ c ∈ a.text, isBlank c = false := by
  intro c hc
  have hplain := a.plain c hc
  simp only [isAtomChar, Bool.and_eq_true, Bool.not_eq_true'] at hplain
  exact hplain.1

theorem Printing.not_blank {n : Nat} {t : Term} (p : Printing n t) :
    ∀ q ∈ p.tokens, ∀ c ∈ q.text, isBlank c = false := by
  have hopen : isBlank '(' = false := isBlank_delimiter '(' (by decide)
  have hclose : isBlank ')' = false := isBlank_delimiter ')' (by decide)
  have hstar : isBlank '*' = false := isBlank_delimiter '*' (by decide)
  induction p with
  | atom a => simpa [tokens, Piece.text] using a.not_blank
  | star => simp [tokens, Piece.text, hopen, hclose, hstar]
  | binary op _ left right ihl ihr =>
    have hop : isBlank op.symbol = false := isBlank_delimiter _ (symbol_mem_delimiters op)
    simpa [tokens, Piece.text, or_imp, forall_and, hop] using ⟨ihl, ihr⟩
  | call name argument ih =>
    simpa [tokens, Piece.text, or_imp, forall_and, hopen, hclose] using ⟨name.not_blank, ih⟩
  | callStar name =>
    simpa [tokens, Piece.text, hopen, hclose, hstar] using name.not_blank
  | group p ih =>
    simpa [tokens, Piece.text, or_imp, forall_and, hopen, hclose] using ih

/-! ### Splitting -/

def Breaks (rest : List Char) : Prop :=
  ∀ c ∈ rest.head?, c ∈ delimiters

theorem breaks_cons {c : Char} (h : c ∈ delimiters) (rest : List Char) : Breaks (c :: rest) := by
  simpa [Breaks] using h

theorem splitFrom_of_ne {previous : Option Char} (h : previous ≠ some '(') (text : List Char) :
    Piece.splitFrom previous text = Piece.splitFrom none text := by
  cases text with
  | nil => rfl
  | cons c text => simp [Piece.splitFrom, h]

theorem splitFrom_operator (op : ArithOp) (text : List Char) :
    Piece.splitFrom none (op.symbol :: text) =
      .operator op :: Piece.splitFrom (some op.symbol) text := by
  cases op <;> rfl

theorem consOperand_of_breaks {rest : List Char} (h : Breaks rest) (c : Char) :
    Piece.consOperand c (Piece.splitFrom none rest) =
      .operand [c] :: Piece.splitFrom none rest := by
  cases rest with
  | nil => rfl
  | cons d rest =>
    have hd : d ∈ delimiters := h d rfl
    simp only [delimiters, List.mem_cons, List.not_mem_nil, or_false] at hd
    rcases hd with rfl | rfl | rfl | rfl | rfl | rfl | rfl <;> rfl

theorem notMem_delimiters {c : Char} (h : isAtomChar c = true) : c ∉ delimiters := by
  simp only [isAtomChar, Bool.and_eq_true, Bool.not_eq_true', List.contains_eq_mem,
    decide_eq_false_iff_not] at h
  exact h.2

theorem splitFrom_atomChar {c : Char} (h : isAtomChar c = true) (previous : Option Char)
    (text : List Char) : Piece.splitFrom previous (c :: text) =
      Piece.consOperand c (Piece.splitFrom none text) := by
  have hc := notMem_delimiters h
  simp only [delimiters, List.mem_cons, List.not_mem_nil, or_false, not_or] at hc
  have hprevious : Piece.splitFrom (some c) text = Piece.splitFrom none text :=
    splitFrom_of_ne (by simp [hc.1]) text
  simp [Piece.splitFrom, ArithOp.ofSymbol?, hc, hprevious]

theorem splitFrom_atom (a : Atom) {rest : List Char} (h : Breaks rest) (previous : Option Char) :
    Piece.splitFrom previous (a.text ++ rest) = .operand a.text :: Piece.splitFrom none rest := by
  obtain ⟨text, hne, hplain⟩ := a
  induction text generalizing previous with
  | nil => exact absurd rfl hne
  | cons c text ih =>
    have hc := splitFrom_atomChar (hplain c (by simp)) previous (text ++ rest)
    rw [List.cons_append, hc]
    by_cases htext : text = []
    · subst htext
      exact consOperand_of_breaks h c
    · have hrest := ih none htext fun d hd => hplain d (List.mem_cons_of_mem c hd)
      simp only at hrest
      simp [hrest, Piece.consOperand]

theorem splitFrom_close (previous : Option Char) (rest : List Char) :
    Piece.splitFrom previous (')' :: rest) = .rparen :: Piece.splitFrom none rest := by
  have hrest : Piece.splitFrom (some ')') rest = Piece.splitFrom none rest :=
    splitFrom_of_ne (by decide) rest
  exact congrArg (List.cons .rparen) hrest

theorem splitFrom_open (previous : Option Char) (rest : List Char) :
    Piece.splitFrom previous ('(' :: rest) = .lparen :: Piece.splitFrom (some '(') rest :=
  rfl

theorem splitFrom_star (previous : Option Char) (rest : List Char) :
    Piece.splitFrom previous ('(' :: '*' :: ')' :: rest) =
      .lparen :: .operand ['*'] :: .rparen :: Piece.splitFrom none rest := by
  have hstar : Piece.splitFrom (some '(') ('*' :: ')' :: rest) =
      Piece.consOperand '*' (Piece.splitFrom (some '*') (')' :: rest)) := rfl
  rw [splitFrom_open, hstar, splitFrom_close]
  rfl

theorem Printing.splitFrom_tokens {n : Nat} {t : Term} (p : Printing n t) {rest : List Char}
    (h : Breaks rest) (previous : Option Char) :
    Piece.splitFrom previous (glued p.tokens ++ rest) =
      p.tokens ++ Piece.splitFrom none rest := by
  have hclose (text : List Char) : Breaks (')' :: text) := breaks_cons (by decide) text
  induction p generalizing previous rest with
  | atom a => simpa [tokens, glued, Piece.text] using splitFrom_atom a h previous
  | star => simpa [tokens, glued, Piece.text] using splitFrom_star previous rest
  | binary op _ left right ihl ihr =>
    have hright := ihr h (some op.symbol)
    have hop : Breaks (op.symbol :: (glued right.tokens ++ rest)) :=
      breaks_cons (symbol_mem_delimiters op) _
    have hleft := ihl hop previous
    rw [splitFrom_operator, hright] at hleft
    simpa [tokens, glued, Piece.text] using hleft
  | call name argument ih =>
    have hargument := ih (hclose rest) (some '(')
    rw [splitFrom_close] at hargument
    have hopen : Breaks ('(' :: (glued argument.tokens ++ ')' :: rest)) :=
      breaks_cons (by decide) _
    have hname := splitFrom_atom name hopen previous
    rw [splitFrom_open, hargument] at hname
    simpa [tokens, glued, Piece.text] using hname
  | callStar name =>
    have hopen : Breaks ('(' :: '*' :: ')' :: rest) := breaks_cons (by decide) _
    have hname := splitFrom_atom name hopen previous
    rw [splitFrom_star] at hname
    simpa [tokens, glued, Piece.text] using hname
  | group p ih =>
    have hinner := ih (hclose rest) (some '(')
    rw [splitFrom_close] at hinner
    have hopen := splitFrom_open previous (glued p.tokens ++ ')' :: rest)
    rw [hinner] at hopen
    simpa [tokens, glued, Piece.text] using hopen

theorem Printing.split_of_dropBlanks {n : Nat} {t : Term} (p : Printing n t) {text : List Char}
    (h : Text.dropBlanks text = glued p.tokens) : Piece.split text = p.tokens := by
  have hend : Breaks [] := by simp [Breaks]
  have hsplit := p.splitFrom_tokens hend none
  simp only [List.append_nil, Piece.splitFrom] at hsplit
  rw [Piece.split, h, hsplit]

end DocQuery.Arithmetic
