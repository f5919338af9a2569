import DocQuery.Proofs.Arithmetic.Alternation

/-! Which texts that are read are infix expressions. Reading does not ask for operands and operators
to alternate, and brackets that touch let others pass: `(a) (b) +` is read as `a + b`. Where no two
groups touch and no brackets are empty, only infix expressions are read. -/

namespace DocQuery

/-- The operands and operators from left to right, without the brackets. -/
def Arithmetic.reading (ps : List Piece) : List (List Char) :=
  (ps.filter fun p => p.isOperand || p.isOperator).map written

def Expr.inorder : Expr → List (List Char)
  | leaf text => Arithmetic.reading (Piece.split text.toList)
  | binary op left right => left.inorder ++ Arithmetic.written (.operator op) :: right.inorder
  | call function argument => function.toList :: argument.inorder

namespace Arithmetic

/-- The text, which has no blanks, is an infix expression, with the operands and operators of the
given one in its order. -/
def IsInfixOf (text : List Char) (e : Expr) : Prop :=
  ∃ t, ∃ p : Printing 0 t, p.tokens.flatMap written = text ∧ t.expr = e ∧
    reading p.tokens = e.inorder

/-! ### Reading in order -/

theorem reading_append (ps qs : List Piece) : reading (ps ++ qs) = reading ps ++ reading qs := by
  simp [reading]

def Term.words : Term → List (List Char)
  | atom a => [a.text]
  | star => [['*']]
  | binary op s t => s.words ++ written (.operator op) :: t.words
  | call name t => name.text :: t.words

theorem Printing.reading_tokens {n : Nat} {t : Term} (p : Printing n t) :
    reading p.tokens = t.words := by
  induction p with
  | binary op _ left right ihl ihr =>
    rw [tokens, reading_append, ihl, Term.words, ← ihr]
    rfl
  | call name argument ih =>
    rw [tokens, ← List.cons_append, ← List.cons_append, reading_append, Term.words, ← ih]
    simp [reading, Piece.isOperand, Piece.isOperator, written]
  | group p ih =>
    rw [tokens, ← List.cons_append, reading_append, ← ih]
    simp [reading, Piece.isOperand, Piece.isOperator]
  | _ => rfl

theorem Printing.dropBlanks_glued {n : Nat} {t : Term} (p : Printing n t) :
    Text.dropBlanks (glued p.tokens) = glued p.tokens := by
  apply Text.dropBlanks_of_solid
  intro c hc
  obtain ⟨q, hq, hc⟩ := List.mem_flatMap.mp hc
  exact p.not_blank q hq c hc

theorem Term.printing_of_leaf {t : Term} {text : String} (h : t.expr = .leaf text) :
    t = .star ∨ ∃ p : Printing 0 t, glued p.tokens = text.toList := by
  induction t generalizing text with
  | atom a =>
    cases h
    exact .inr ⟨.atom a, by simp [Printing.tokens, Piece.text]⟩
  | star => exact .inl rfl
  | binary op s t => cases h
  | call name t ih =>
    rw [Term.expr] at h
    cases hargument : t.expr with
    | leaf inner =>
      rw [hargument, applied] at h
      cases h
      obtain rfl | ⟨p, hp⟩ := ih hargument
      · -- The star has no printing of its own without brackets, but its call has one.
        cases hargument
        exact .inr ⟨.callStar name, by simp [Printing.tokens, Piece.text]⟩
      · exact .inr ⟨.call name p, by simp [Printing.tokens, Piece.text, hp]⟩
    | _ =>
      rw [hargument] at h
      cases h

theorem Term.inorder_expr (t : Term) : t.expr.inorder = t.words := by
  have hleaf {t : Term} {text : String} (h : t.expr = .leaf text) : t.expr.inorder = t.words := by
    obtain rfl | ⟨p, hp⟩ := printing_of_leaf h
    · rfl
    · rw [h, Expr.inorder, ← hp, p.split_of_dropBlanks p.dropBlanks_glued, p.reading_tokens]
  induction t with
  | atom a => exact hleaf rfl
  | star => rfl
  | binary op s t ihs iht => rw [Term.expr, Expr.inorder, ihs, iht, Term.words]
  | call name t ih =>
    cases hargument : t.expr with
    | leaf inner => exact hleaf (by rw [Term.expr, hargument, applied])
    | _ =>
      rw [Term.expr, Term.words, ← ih, hargument]
      simp [applied, Expr.inorder]

/-! ### What splitting gives -/

/-- Pieces as a text is split: no two operands follow one another, and a star is an operand between
brackets of its own only. -/
inductive IsSplit : List Piece → Prop where
  | nil : IsSplit []
  | atom {ps : List Piece} (a : Atom) (next : ∀ p ∈ ps.head?, p.isOperand = false)
    (h : IsSplit ps) : IsSplit (.operand a.text :: ps)
  | operator {ps : List Piece} (op : ArithOp) (h : IsSplit ps) : IsSplit (.operator op :: ps)
  | lparen {ps : List Piece} (h : IsSplit ps) : IsSplit (.lparen :: ps)
  | rparen {ps : List Piece} (h : IsSplit ps) : IsSplit (.rparen :: ps)
  | star {ps : List Piece} (h : IsSplit ps) :
    IsSplit (.lparen :: .operand ['*'] :: .rparen :: ps)

theorem IsSplit.consOperand {c : Char} (hc : isAtomChar c = true) {ps : List Piece}
    (h : IsSplit ps) : IsSplit (Piece.consOperand c ps) := by
  have hone : IsSplit ps → (∀ p ∈ ps.head?, p.isOperand = false) →
      IsSplit (.operand [c] :: ps) := fun h next => .atom ⟨[c], by simp, by simpa using hc⟩ next h
  cases h with
  | atom a next h => exact .atom ⟨c :: a.text, by simp, by simpa [hc] using a.plain⟩ next h
  | nil => exact hone .nil (by simp)
  | operator op h => exact hone (.operator op h) (by simp [Piece.isOperand])
  | lparen h => exact hone (.lparen h) (by simp [Piece.isOperand])
  | rparen h => exact hone (.rparen h) (by simp [Piece.isOperand])
  | star h => exact hone (.star h) (by simp [Piece.isOperand])

theorem isAtomChar_iff {c : Char} : isAtomChar c = true ↔
    isBlank c = false ∧ c ≠ '(' ∧ c ≠ ')' ∧ ArithOp.ofSymbol? c = none := by
  have hop : ArithOp.ofSymbol? c = none ↔ c ≠ '+' ∧ c ≠ '-' ∧ c ≠ '*' ∧ c ≠ '/' ∧ c ≠ '%' := by
    unfold ArithOp.ofSymbol?
    grind
  simp [isAtomChar, delimiters, hop]

theorem splitFrom_opened {text : List Char} (h : ∀ rest, text ≠ '*' :: ')' :: rest) :
    Piece.splitFrom (some '(') text = Piece.splitFrom none text := by
  rcases text with _ | ⟨c, _ | ⟨d, text⟩⟩
  · rfl
  · simp [Piece.splitFrom]
  · have hstar : ¬ (c = '*' ∧ d = ')') := by
      rintro ⟨rfl, rfl⟩
      exact h text rfl
    simp [Piece.splitFrom, hstar]

theorem isSplit_splitFrom {text : List Char} (h : ∀ c ∈ text, isBlank c = false) :
    IsSplit (Piece.splitFrom none text) := by
  -- On the length, as a star takes its brackets with it.
  induction hlength : text.length using Nat.strong_induction_on generalizing text with
  | _ n ih =>
    subst hlength
    cases text with
    | nil => exact .nil
    | cons c text =>
      have htext : ∀ d ∈ text, isBlank d = false := fun d hd => h d (List.mem_cons_of_mem c hd)
      have hrest := ih text.length (by simp) htext rfl
      by_cases hopen : c = '('
      · subst hopen
        by_cases hstar : ∃ rest, text = '*' :: ')' :: rest
        · obtain ⟨rest, rfl⟩ := hstar
          rw [splitFrom_star]
          exact .star (ih rest.length (by simp; omega) (by simp_all) rfl)
        · rw [splitFrom_open, splitFrom_opened fun rest hrest => hstar ⟨rest, hrest⟩]
          exact .lparen hrest
      by_cases hclose : c = ')'
      · subst hclose
        rw [splitFrom_close]
        exact .rparen hrest
      cases hop : ArithOp.ofSymbol? c with
      | some op =>
        rw [← symbol_of_ofSymbol? hop, splitFrom_operator, splitFrom_of_ne]
        · exact .operator op hrest
        · rw [symbol_of_ofSymbol? hop]
          simpa using hopen
      | none =>
        have hc : isAtomChar c = true :=
          isAtomChar_iff.mpr ⟨h c List.mem_cons_self, hopen, hclose, hop⟩
        rw [splitFrom_atomChar hc]
        exact hrest.consOperand hc

/-! ### Building a printing -/

def Prints (n : Nat) (ps : List Piece) : Prop :=
  ∃ t, ∃ p : Printing n t, p.tokens = ps

namespace Prints

variable {n m : Nat} {ps left right : List Piece}

theorem weaken (h : Prints n ps) (hm : m ≤ n) : Prints m ps := by
  obtain ⟨t, p, rfl⟩ := h
  cases p with
  | atom a => exact ⟨_, .atom a, rfl⟩
  | star => exact ⟨_, .star, rfl⟩
  | binary op loose left right => exact ⟨_, .binary op (hm.trans loose) left right, rfl⟩
  | call name argument => exact ⟨_, .call name argument, rfl⟩
  | callStar name => exact ⟨_, .callStar name, rfl⟩
  | group p => exact ⟨_, .group p, rfl⟩

theorem binary {op : ArithOp} (hop : tightness op = n) (hleft : Prints n left)
    (hright : Prints (n + 1) right) : Prints n (left ++ Piece.operator op :: right) := by
  subst hop
  obtain ⟨s, l, rfl⟩ := hleft
  obtain ⟨t, r, rfl⟩ := hright
  exact ⟨_, .binary op (Nat.le_refl _) l r, rfl⟩

theorem group (h : Prints 0 ps) : Prints n (.lparen :: (ps ++ [Piece.rparen])) := by
  obtain ⟨t, p, rfl⟩ := h
  exact ⟨_, .group p, rfl⟩

theorem call (name : Atom) (h : Prints 0 ps) :
    Prints n (.operand name.text :: .lparen :: (ps ++ [Piece.rparen])) := by
  obtain ⟨t, p, rfl⟩ := h
  exact ⟨_, .call name p, rfl⟩

end Prints

/-- Tokens that an operator of any priority can follow: a product, and in front of it what makes a
sum of every product. -/
def Complete (ps : List Piece) : Prop :=
  ∃ front product, ps = front ++ product ∧ Prints 2 product ∧
    ∀ qs, Prints 2 qs → Prints 1 (front ++ qs)

/-- Tokens that an operand of an operator can follow. -/
def Awaits (ps : List Piece) : Prop :=
  ∀ qs, Prints 3 qs → Complete (ps ++ qs)

theorem awaits_nil : Awaits [] := fun qs hqs =>
  ⟨[], qs, rfl, hqs.weaken (by omega), fun _ hps => hps.weaken (by omega)⟩

theorem Complete.prints {ps : List Piece} (h : Complete ps) : Prints 0 ps := by
  obtain ⟨front, product, rfl, hproduct, hfront⟩ := h
  exact (hfront product hproduct).weaken (by omega)

theorem Complete.operator {ps : List Piece} (h : Complete ps) (op : ArithOp) :
    Awaits (ps ++ [Piece.operator op]) := by
  obtain ⟨front, product, rfl, hproduct, hfront⟩ := h
  intro qs hqs
  have hlevel : tightness op = 1 ∨ tightness op = 2 := by cases op <;> simp [tightness]
  rcases hlevel with hop | hop
  · -- A sum ends the product in front of it.
    refine ⟨front ++ product ++ [Piece.operator op], qs, rfl, hqs.weaken (by omega),
      fun ps hps => ?_⟩
    simpa using (hfront product hproduct).binary hop hps
  · exact ⟨front, product ++ Piece.operator op :: qs, by simp, hproduct.binary hop hqs, hfront⟩

/-- The tokens up to the bracket that is open last, at the given depth. -/
inductive Begun : Nat → List Piece → Prop where
  | start : Begun 0 []
  | group {depth : Nat} {front ps : List Piece} (outer : Begun depth front) (h : Awaits ps) :
    Begun (depth + 1) (front ++ ps ++ [Piece.lparen])
  | call {depth : Nat} {front ps : List Piece} (outer : Begun depth front) (h : Awaits ps)
    (name : Atom) : Begun (depth + 1) (front ++ ps ++ [Piece.operand name.text, .lparen])

/-- The tokens of an infix expression up to a place in it. -/
inductive Reaches : Place → Nat → List Piece → Prop where
  | awaiting {place : Place} {depth : Nat} {front ps : List Piece} (hplace : place.held = 0)
    (outer : Begun depth front) (h : Awaits ps) : Reaches place depth (front ++ ps)
  | named {depth : Nat} {front ps : List Piece} (outer : Begun depth front) (h : Awaits ps)
    (name : Atom) : Reaches .named depth (front ++ ps ++ [Piece.operand name.text])
  | closed {depth : Nat} {front ps : List Piece} (outer : Begun depth front) (h : Complete ps) :
    Reaches .closed depth (front ++ ps)

namespace Reaches

variable {place : Place} {depth : Nat} {ps : List Piece}

theorem exists_complete (h : Reaches place depth ps) (hplace : place.held = 1) :
    ∃ front last, Begun depth front ∧ Complete last ∧ ps = front ++ last := by
  cases h with
  | awaiting hawaiting => omega
  | named outer h name =>
    exact ⟨_, _, outer, h _ ⟨_, .atom name, rfl⟩, List.append_assoc _ _ _⟩
  | closed outer h => exact ⟨_, _, outer, h, rfl⟩

theorem operand (h : Reaches place depth ps) {a : Atom}
    (hplace : place.admits (.operand a.text) = true) :
    Reaches .named depth (ps ++ [Piece.operand a.text]) := by
  cases h with
  | awaiting _ outer h => exact .named outer h a
  | named => cases hplace
  | closed => cases hplace

theorem operator (h : Reaches place depth ps) {op : ArithOp}
    (hplace : place.admits (.operator op) = true) :
    Reaches .vacant depth (ps ++ [Piece.operator op]) := by
  have hheld : place.held = 1 := by cases place <;> cases hplace <;> rfl
  obtain ⟨front, last, outer, hlast, rfl⟩ := h.exists_complete hheld
  rw [List.append_assoc]
  exact .awaiting rfl outer (hlast.operator op)

theorem bracket (h : Reaches place depth ps) (hplace : place.admits .lparen = true) :
    Reaches .opened (depth + 1) (ps ++ [Piece.lparen]) := by
  cases h with
  | awaiting _ outer h => simpa using Reaches.awaiting rfl (.group outer h) awaits_nil
  | named outer h name => simpa using Reaches.awaiting rfl (.call outer h name) awaits_nil
  | closed => cases hplace

theorem close (h : Reaches place (depth + 1) ps) (hplace : place.admits .rparen = true) :
    Reaches .closed depth (ps ++ [Piece.rparen]) := by
  have hheld : place.held = 1 := by cases place <;> cases hplace <;> rfl
  obtain ⟨front, last, outer, hlast, rfl⟩ := h.exists_complete hheld
  cases outer with
  | group outer hfront => simpa using Reaches.closed outer (hfront _ hlast.prints.group)
  | call outer hfront name => simpa using Reaches.closed outer (hfront _ (hlast.prints.call name))

theorem star (h : Reaches place depth ps) (hplace : place.admits .lparen = true) :
    Reaches .closed depth (ps ++ [Piece.lparen, .operand ['*'], .rparen]) := by
  cases h with
  | awaiting _ outer h =>
    rw [List.append_assoc]
    exact .closed outer (h _ ⟨_, .star, rfl⟩)
  | named outer h name =>
    rw [List.append_assoc, List.append_assoc]
    exact .closed outer (h _ ⟨_, .callStar name, rfl⟩)
  | closed => cases hplace

end Reaches

theorem prints_of_alternates {place : Place} {depth : Nat} {done ps : List Piece}
    (hps : IsSplit ps) (h : Reaches place depth done) (halternates : alternates place ps = true)
    (hcloses : closes depth ps = true) : Prints 0 (done ++ ps) := by
  induction hps generalizing place depth done with
  | nil =>
    have hheld : place.held = 1 := by simpa [alternates] using halternates
    obtain ⟨front, last, outer, hlast, rfl⟩ := h.exists_complete hheld
    obtain rfl : depth = 0 := by simpa [closes] using hcloses
    -- No bracket is open, so nothing stands in front of what is complete.
    cases outer
    simpa using hlast.prints
  | atom a _ _ ih =>
    obtain ⟨hplace, hrest⟩ := Bool.and_eq_true_iff.mp halternates
    simpa using ih (h.operand hplace) hrest hcloses
  | operator op _ ih =>
    obtain ⟨hplace, hrest⟩ := Bool.and_eq_true_iff.mp halternates
    simpa using ih (h.operator hplace) hrest hcloses
  | lparen _ ih =>
    obtain ⟨hplace, hrest⟩ := Bool.and_eq_true_iff.mp halternates
    simpa using ih (h.bracket hplace) hrest hcloses
  | rparen _ ih =>
    obtain ⟨hplace, hrest⟩ := Bool.and_eq_true_iff.mp halternates
    cases depth with
    | zero => cases hcloses
    | succ depth => simpa using ih (h.close hplace) hrest hcloses
  | star _ ih =>
    obtain ⟨hplace, hrest⟩ := Bool.and_eq_true_iff.mp halternates
    simpa using ih (h.star hplace) hrest hcloses

/-! ### Brackets that touch -/

/-- What may follow a character: no bracket closes right where one opens, and behind a closing
bracket stands another one or an operator. -/
def Fits (c d : Char) : Prop :=
  (c = '(' → d ≠ ')') ∧ (c = ')' → d ∈ [')', '+', '-', '*', '/', '%'])

theorem fits_of_isAtomChar {c : Char} (h : isAtomChar c = true) (d : Char) : Fits c d := by
  obtain ⟨-, hopen, hclose, -⟩ := isAtomChar_iff.mp h
  exact ⟨fun hc => absurd hc hopen, fun hc => absurd hc hclose⟩

theorem fits_symbol (op : ArithOp) (d : Char) : Fits op.symbol d ∧ Fits d op.symbol := by
  cases op <;> simp [Fits, ArithOp.symbol]

theorem Atom.fits (a : Atom) {rest : List Char} (h : rest.IsChain Fits) :
    ('(' :: (a.text ++ rest)).IsChain Fits := by
  obtain ⟨text, hne, hplain⟩ := a
  have hchain : (text ++ rest).IsChain Fits := by
    clear hne
    induction text with
    | nil => exact h
    | cons c text ih =>
      obtain ⟨hc, htext⟩ := List.forall_mem_cons.mp hplain
      exact (ih htext).cons fun d _ => fits_of_isAtomChar hc d
  cases text with
  | nil => exact absurd rfl hne
  | cons c text =>
    have hc := isAtomChar_iff.mp (hplain c List.mem_cons_self)
    exact .cons_cons ⟨fun _ => hc.2.2.1, by simp⟩ hchain

theorem Printing.fits {n : Nat} {t : Term} (p : Printing n t) {rest : List Char}
    (h : (')' :: rest).IsChain Fits) : ('(' :: (glued p.tokens ++ rest)).IsChain Fits := by
  have hopen : Fits '(' '(' := by simp [Fits]
  have hclose : Fits ')' ')' := by simp [Fits]
  induction p generalizing rest with
  | atom a => simpa [tokens, Piece.text] using a.fits h.tail
  | star =>
    have hstar : ('*' :: ')' :: rest).IsChain Fits := .cons_cons (by simp [Fits]) h
    simpa [tokens, Piece.text] using hstar.cons_cons (by simp [Fits]) |>.cons_cons hopen
  | binary op _ left right ihl ihr =>
    have hright := (ihr h).tail.cons fun d _ => (fits_symbol op d).1
    have hleft := ihl (hright.cons_cons (fits_symbol op ')').2)
    simpa [tokens, Piece.text] using hleft
  | call name argument ih =>
    have hargument := ih (h.cons_cons hclose)
    simpa [tokens, Piece.text] using name.fits hargument
  | callStar name =>
    have hstar : ('*' :: ')' :: rest).IsChain Fits := .cons_cons (by simp [Fits]) h
    simpa [tokens, Piece.text] using name.fits (hstar.cons_cons (by simp [Fits]))
  | group p ih =>
    have hinner := ih (h.cons_cons hclose)
    simpa [tokens, Piece.text] using hinner.cons_cons hopen

namespace Place

def bracket : Place → List Char
  | opened => ['(']
  | closed => [')']
  | _ => []

theorem isApart_of_fits {place : Place} {p : Piece} {c : Char} {text : List Char}
    (hcall : p ≠ .call) (htext : p.text = c :: text)
    (hoperand : p.isOperand = true → place ≠ .named ∧ isAtomChar c = true)
    (hfits : ∀ b ∈ place.bracket, Fits b c) : place.isApart p = true := by
  cases p with
  | operand name =>
    obtain ⟨hnamed, hc⟩ := hoperand rfl
    cases place with
    | named => exact absurd rfl hnamed
    | closed =>
      have hmem := (hfits ')' (by simp [bracket])).2 rfl
      exact absurd (List.mem_cons_of_mem '(' hmem) (notMem_delimiters hc)
    | _ => rfl
  | operator op => cases place <;> rfl
  | call => exact absurd rfl hcall
  | lparen =>
    cases htext
    cases place with
    | closed => simpa using (hfits ')' (by simp [bracket])).2 rfl
    | _ => rfl
  | rparen =>
    cases htext
    cases place with
    | opened => exact absurd rfl ((hfits '(' (by simp [bracket])).1 rfl)
    | _ => rfl

end Place

theorem keepsApart_cons {place : Place} {p : Piece} {ps : List Piece} {c : Char}
    {text : List Char} (hcall : p ≠ .call) (htext : p.text = c :: text)
    (hoperand : p.isOperand = true → place ≠ .named ∧ isAtomChar c = true)
    (hfits : (place.bracket ++ glued (p :: ps)).IsChain Fits)
    (hrest : (c :: (text ++ glued ps)).IsChain Fits → keepsApart (.after p) ps = true) :
    keepsApart place (p :: ps) = true := by
  rw [glued_cons, htext] at hfits
  have hbracket : (∀ b ∈ place.bracket, Fits b c) ∧ (c :: (text ++ glued ps)).IsChain Fits := by
    cases place <;> simpa [Place.bracket, List.isChain_cons_cons] using hfits
  have happart := Place.isApart_of_fits hcall htext hoperand hbracket.1
  exact Bool.and_eq_true_iff.mpr ⟨happart, hrest hbracket.2⟩

theorem keepsApart_of_fits {place : Place} {ps : List Piece} (h : IsSplit ps)
    (hnext : place = .named → ∀ p ∈ ps.head?, p.isOperand = false)
    (hfits : (place.bracket ++ glued ps).IsChain Fits) : keepsApart place ps = true := by
  induction h generalizing place with
  | nil => rfl
  | atom a next _ ih =>
    obtain ⟨c, text, htext⟩ := List.exists_cons_of_ne_nil a.ne_nil
    have hc : isAtomChar c = true := a.plain c (by simp [htext])
    have hnamed : place ≠ .named := fun hplace => by
      simpa [Piece.isOperand] using hnext hplace _ rfl
    refine keepsApart_cons (by simp) htext (fun _ => ⟨hnamed, hc⟩) hfits fun hrest => ?_
    exact ih (fun _ => next) hrest.tail.right_of_append
  | operator op _ ih =>
    refine keepsApart_cons (by simp) rfl (by simp [Piece.isOperand]) hfits fun hrest => ?_
    exact ih (by simp [Place.after]) hrest.tail
  | lparen _ ih =>
    refine keepsApart_cons (by simp) rfl (by simp [Piece.isOperand]) hfits fun hrest => ?_
    exact ih (by simp [Place.after]) hrest
  | rparen _ ih =>
    refine keepsApart_cons (by simp) rfl (by simp [Piece.isOperand]) hfits fun hrest => ?_
    exact ih (by simp [Place.after]) hrest
  | star _ ih =>
    refine keepsApart_cons (by simp) rfl (by simp [Piece.isOperand]) hfits fun hrest => ?_
    exact ih (by simp [Place.after]) hrest.tail.tail

/-! ### What is read -/

/-- A text is an infix expression where it is read and its brackets do not touch. -/
theorem isInfixOf_iff (text : String) (e : Expr) :
    IsInfixOf (Text.dropBlanks text.toList) e ↔
      Expr.read text = .ok e ∧ (Text.dropBlanks text.toList).IsChain Fits := by
  constructor
  · rintro ⟨t, p, hglued, rfl, -⟩
    rw [flatMap_written] at hglued
    have hfits := (p.fits (List.isChain_singleton ')')).tail
    exact ⟨p.read_eq hglued.symm, by simpa [hglued] using hfits⟩
  · rintro ⟨hread, hfits⟩
    have hglued : glued (Piece.split text.toList) = Text.dropBlanks text.toList :=
      glued_splitFrom none _
    have hsplit : IsSplit (Piece.split text.toList) :=
      isSplit_splitFrom (by simp [Text.dropBlanks])
    have happart : keepsApart .vacant (Piece.split text.toList) = true :=
      keepsApart_of_fits hsplit (by simp) (by simpa [Place.bracket, hglued] using hfits)
    obtain ⟨halternates, hcloses⟩ := alternates_of_read hread happart
    obtain ⟨t, p, hp⟩ :=
      prints_of_alternates hsplit (.awaiting rfl .start awaits_nil) halternates hcloses
    rw [List.append_nil, List.nil_append] at hp
    have hexpr : Expr.read text = .ok t.expr := p.read_eq (by rw [hp, hglued])
    obtain rfl : e = t.expr := Except.ok.inj (hread.symm.trans hexpr)
    exact ⟨t, p, by rw [flatMap_written, hp, hglued], rfl,
      by rw [p.reading_tokens, t.inorder_expr]⟩

/-- Two groups that touch, and an operator with nothing behind it. -/
theorem read_touching_groups :
    Expr.read "(a) (b) +" = .ok (.binary .add (.leaf "a") (.leaf "b")) ∧
      ∀ e, ¬ IsInfixOf (Text.dropBlanks "(a) (b) +".toList) e := by
  refine ⟨by cbv, ?_⟩
  rintro e ⟨t, p, hglued, -⟩
  have hfits := (p.fits (List.isChain_singleton ')')).tail
  rw [← flatMap_written, hglued] at hfits
  have htext : Text.dropBlanks "(a) (b) +".toList = ['(', 'a', ')', '(', 'b', ')', '+'] := by cbv
  rw [htext] at hfits
  simp [Fits] at hfits

end Arithmetic

end DocQuery
