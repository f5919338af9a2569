import DocQuery.Proofs.Arithmetic.Reading
import DocQuery.Statement.Mismatch

/-! The operands of an expression that has been read. Blanks and needless brackets are gone from
them, so that an operand that is read again is itself. -/

namespace DocQuery

/-! ### Steps and expressions -/

def Step.operand? : Step → Option String
  | operand text => some text
  | _ => none

namespace Expr

/-- The names, numbers and calls without an operator that an expression is made of. -/
def operands : Expr → List String
  | leaf text => [text]
  | binary _ left right => left.operands ++ right.operands
  | call function argument => function :: argument.operands

theorem operands_program (e : Expr) : e.program.filterMap Step.operand? = e.operands := by
  induction e with
  | leaf text => rfl
  | binary op left right ihl ihr => simp [program, operands, ihl, ihr, Step.operand?]
  | call function argument ih => simp [program, operands, ih, Step.operand?]

theorem program_of_step {stack result : List Expr} {s : Step} (h : step stack s = .ok result) :
    stack.reverse.flatMap program ++ [s] = result.reverse.flatMap program := by
  unfold step at h
  split at h
  all_goals cases h
  · simp [program]
  · simp [program]
  · simp [program]

theorem program_of_steps {stack result : List Expr} {ss : List Step}
    (h : steps stack ss = .ok result) :
    stack.reverse.flatMap program ++ ss = result.reverse.flatMap program := by
  induction ss generalizing stack with
  | nil =>
    cases h
    exact List.append_nil _
  | cons s ss ih =>
    rw [steps] at h
    split at h
    · cases h
    · rename_i mid hmid
      rw [← ih h, ← program_of_step hmid, List.append_assoc, List.singleton_append]

theorem eq_program_of_ofSteps {ss : List Step} {e : Expr} (h : ofSteps ss = .ok e) :
    ss = e.program := by
  unfold ofSteps at h
  split at h
  all_goals cases h
  rename_i hsteps
  simpa using program_of_steps hsteps

end Expr

namespace Arithmetic

/-! ### Texts without needless brackets -/

/-- Every opening bracket follows a character that is no bracket. -/
def opensNamed (named : Bool) : List Char → Bool
  | [] => true
  | c :: text =>
    if c = '(' then named && opensNamed false text else opensNamed (decide (c ≠ ')')) text

theorem opensNamed_of_false {text : List Char} (h : opensNamed false text = true) (named : Bool) :
    opensNamed named text = true := by
  cases text with
  | nil => rfl
  | cons c text =>
    by_cases hc : c = '('
    · simp [opensNamed, hc] at h
    · simpa [opensNamed, hc] using h

theorem opensNamed_append {named : Bool} {s text : List Char}
    (hs : opensNamed named s = true) (htext : opensNamed false text = true) :
    opensNamed named (s ++ text) = true := by
  induction s generalizing named with
  | nil => exact opensNamed_of_false htext named
  | cons c s ih =>
    by_cases hc : c = '('
    · simp only [opensNamed, hc, if_true, Bool.and_eq_true] at hs
      simp [opensNamed, hc, hs.1, ih hs.2]
    · simp only [opensNamed, hc, if_false] at hs
      simpa [opensNamed, hc] using ih hs

/-- An operand as it is written: no blanks, no brackets. -/
structure Bare (text : List Char) : Prop where
  ne_nil : text ≠ []
  not_blank : ∀ c ∈ text, isBlank c = false
  not_bracket : ∀ c ∈ text, c ≠ '(' ∧ c ≠ ')'

theorem Bare.opensNamed_append {name : List Char} (h : Bare name) (named : Bool)
    (text : List Char) : opensNamed named (name ++ text) = opensNamed true text := by
  obtain ⟨hne, -, hbracket⟩ := h
  induction name generalizing named with
  | nil => exact absurd rfl hne
  | cons c name ih =>
    have hc := hbracket c List.mem_cons_self
    have hstep : opensNamed named (c :: name ++ text) = opensNamed true (name ++ text) := by
      simp [opensNamed, hc]
    rw [hstep]
    by_cases hname : name = []
    · rw [hname, List.nil_append]
    · exact ih true hname fun d hd => hbracket d (List.mem_cons_of_mem c hd)

/-- A text without blanks, in which only a name has brackets after it. -/
structure Tidy (text : List Char) : Prop where
  not_blank : ∀ c ∈ text, isBlank c = false
  named : opensNamed false text = true

theorem Bare.tidy {text : List Char} (h : Bare text) : Tidy text := by
  have hnamed := h.opensNamed_append false []
  rw [List.append_nil] at hnamed
  exact ⟨h.not_blank, hnamed⟩

theorem tidy_nil : Tidy [] :=
  ⟨by simp, rfl⟩

theorem Tidy.append {s t : List Char} (hs : Tidy s) (ht : Tidy t) : Tidy (s ++ t) := by
  refine ⟨fun c hc => ?_, opensNamed_append hs.named ht.named⟩
  rcases List.mem_append.mp hc with hc | hc
  · exact hs.not_blank c hc
  · exact ht.not_blank c hc

theorem Tidy.call {content : List Char} (h : Tidy content) {name : List Char} (hname : Bare name) :
    Tidy (name ++ '(' :: content ++ [')']) := by
  have hopen : isBlank '(' = false := isBlank_delimiter '(' (by decide)
  have hclose : isBlank ')' = false := isBlank_delimiter ')' (by decide)
  constructor
  · intro c hc
    simp only [List.mem_append, List.mem_cons, List.not_mem_nil, or_false] at hc
    rcases hc with (hc | rfl | hc) | rfl
    · exact hname.not_blank c hc
    · exact hopen
    · exact h.not_blank c hc
    · exact hclose
  · rw [List.append_assoc, hname.opensNamed_append]
    exact opensNamed_append (s := content) h.named rfl

/-! ### Splitting -/

theorem mem_consOperand {c : Char} {pieces : List Piece} {p : Piece}
    (h : p ∈ Piece.consOperand c pieces) :
    p ∈ pieces ∨ p = .operand [c] ∨ ∃ text, .operand text ∈ pieces ∧ p = .operand (c :: text) := by
  unfold Piece.consOperand at h
  split at h
  · rename_i text pieces
    rcases List.mem_cons.mp h with rfl | h
    · exact .inr (.inr ⟨text, List.mem_cons_self, rfl⟩)
    · exact .inl (List.mem_cons_of_mem _ h)
  · rcases List.mem_cons.mp h with rfl | h
    · exact .inr (.inl rfl)
    · exact .inl h

theorem glued_consOperand (c : Char) (pieces : List Piece) :
    glued (Piece.consOperand c pieces) = c :: glued pieces := by
  unfold Piece.consOperand
  split <;> simp [glued, Piece.text]

theorem symbol_of_ofSymbol? {c : Char} {op : ArithOp} (h : ArithOp.ofSymbol? c = some op) :
    op.symbol = c := by
  unfold ArithOp.ofSymbol? at h
  grind [ArithOp.symbol]

theorem glued_splitFrom (previous : Option Char) (text : List Char) :
    glued (Piece.splitFrom previous text) = text := by
  induction text generalizing previous with
  | nil => rfl
  | cons c text ih =>
    have hrest := ih (some c)
    simp only [Piece.splitFrom]
    split
    · rename_i hc
      simpa [glued, Piece.text, hc] using hrest
    split
    · rename_i hc
      simpa [glued, Piece.text, hc] using hrest
    split
    · rw [glued_consOperand, hrest]
    · rename_i op hop
      split
      · rw [glued_consOperand, hrest]
      · simpa [glued, Piece.text, symbol_of_ofSymbol? hop] using hrest

theorem bare_of_mem_splitFrom {text : List Char} (h : ∀ c ∈ text, isBlank c = false)
    (previous : Option Char) {p : Piece} (hp : p ∈ Piece.splitFrom previous text) :
    p ≠ .call ∧ ∀ name, p = .operand name → Bare name := by
  induction text generalizing previous p with
  | nil => cases hp
  | cons c text ih =>
    have hrest : ∀ q ∈ Piece.splitFrom (some c) text,
        q ≠ .call ∧ ∀ name, q = .operand name → Bare name :=
      fun q hq => ih (fun d hd => h d (List.mem_cons_of_mem c hd)) _ hq
    have hcons : c ≠ '(' → c ≠ ')' → p ∈ Piece.consOperand c (Piece.splitFrom (some c) text) →
        p ≠ .call ∧ ∀ name, p = .operand name → Bare name := by
      intro hopen hclose hmem
      have hc : Bare [c] := ⟨by simp, by simpa using h c, by simp [hopen, hclose]⟩
      rcases mem_consOperand hmem with hq | rfl | ⟨tail, htail, rfl⟩
      · exact hrest p hq
      · exact ⟨by simp, by simpa using hc⟩
      · have hbare := (hrest _ htail).2 tail rfl
        refine ⟨by simp, fun name hname => ?_⟩
        cases hname
        exact ⟨by simp, List.forall_mem_cons.mpr ⟨h c List.mem_cons_self, hbare.not_blank⟩,
          List.forall_mem_cons.mpr ⟨⟨hopen, hclose⟩, hbare.not_bracket⟩⟩
    simp only [Piece.splitFrom] at hp
    split at hp
    · rcases List.mem_cons.mp hp with rfl | hp
      · simp
      · exact hrest p hp
    rename_i hopen
    split at hp
    · rcases List.mem_cons.mp hp with rfl | hp
      · simp
      · exact hrest p hp
    rename_i hclose
    split at hp
    · exact hcons hopen hclose hp
    · split at hp
      · exact hcons hopen hclose hp
      · rcases List.mem_cons.mp hp with rfl | hp
        · simp
        · exact hrest p hp

theorem bare_of_mem_split (text : List Char) :
    ∀ p ∈ Piece.split text, p ≠ .call ∧ ∀ name, p = .operand name → Bare name :=
  fun _ hp => bare_of_mem_splitFrom (by simp [Text.dropBlanks]) none hp

def opensAfterOperand (afterOperand : Bool) : List Piece → Bool
  | [] => true
  | .lparen :: pieces => afterOperand && opensAfterOperand false pieces
  | p :: pieces => opensAfterOperand p.isOperand pieces

theorem opensAfterOperand_consOperand (c : Char) (pieces : List Piece) (b : Bool) :
    opensAfterOperand b (Piece.consOperand c pieces) = opensAfterOperand true pieces := by
  unfold Piece.consOperand
  split <;> simp [opensAfterOperand, Piece.isOperand]

theorem opensAfterOperand_splitFrom {text : List Char} {previous : Option Char} {named : Bool}
    (hnamed : opensNamed named text = true)
    (hop : (Piece.splitFrom previous text).any Piece.isOperator = false) :
    opensAfterOperand named (Piece.splitFrom previous text) = true := by
  induction text generalizing previous named with
  | nil => rfl
  | cons c text ih =>
    -- A character of an operand changes neither the brackets nor what stands before them.
    have hcons : c ≠ '(' → c ≠ ')' →
        (Piece.consOperand c (Piece.splitFrom (some c) text)).any Piece.isOperator = false →
        opensAfterOperand named (Piece.consOperand c (Piece.splitFrom (some c) text)) = true := by
      intro hopen hclose hany
      rw [opensAfterOperand_consOperand]
      apply ih
      · simpa [opensNamed, hopen, hclose] using hnamed
      · unfold Piece.consOperand at hany
        split at hany <;> simp_all [Piece.isOperator]
    simp only [Piece.splitFrom] at hop ⊢
    split at hop
    · rename_i hc
      subst hc
      simp only [opensNamed, if_true, Bool.and_eq_true] at hnamed
      have hplain : (Piece.splitFrom (some '(') text).any Piece.isOperator = false := by
        simpa [Piece.isOperator] using hop
      have hrest := ih hnamed.2 hplain
      simpa [opensAfterOperand, hrest] using hnamed.1
    rename_i hopen
    rw [if_neg hopen]
    split at hop
    · rename_i hc
      subst hc
      have hplain : (Piece.splitFrom (some ')') text).any Piece.isOperator = false := by
        simpa [Piece.isOperator] using hop
      have hnext : opensNamed false text = true := by simpa [opensNamed] using hnamed
      have hrest := ih hnext hplain
      simpa [opensAfterOperand, Piece.isOperand] using hrest
    rename_i hclose
    rw [if_neg hclose]
    split at hop
    · exact hcons hopen hclose hop
    · split at hop
      · rename_i hstar
        rw [if_pos hstar]
        exact hcons hopen hclose hop
      · simp [Piece.isOperator] at hop

/-! ### Collapsing -/

/-- Pieces that leave no bracket open, the last one first. Brackets are left around operations
only. -/
inductive Pile : List Piece → Prop where
  | nil : Pile []
  | operand {text : List Char} {pile : List Piece} (tidy : Tidy text) (below : Pile pile) :
    Pile (.operand text :: pile)
  | operator {op : ArithOp} {pile : List Piece} (below : Pile pile) : Pile (.operator op :: pile)
  | call {name : List Char} {pile : List Piece} (bare : Bare name) (below : Pile pile) :
    Pile (.call :: .operand name :: pile)
  | block {inner pile : List Piece} (closed : Pile inner)
    (operation : inner.any Piece.isOperation = true) (below : Pile pile) :
    Pile (.rparen :: (inner ++ Piece.lparen :: pile))

/-- Piles with open brackets between them. -/
inductive Stacked : List Piece → Prop where
  | pile {pile : List Piece} (h : Pile pile) : Stacked pile
  | open {pile stack : List Piece} (h : Pile pile) (below : Stacked stack) :
    Stacked (pile ++ Piece.lparen :: stack)

theorem Stacked.push {p : Piece} {stack : List Piece} (hp : ∀ pile, Pile pile → Pile (p :: pile))
    (h : Stacked stack) : Stacked (p :: stack) := by
  cases h with
  | pile h => exact .pile (hp _ h)
  | «open» h below => exact .open (hp _ h) below

theorem Stacked.call {name : List Char} {stack : List Piece} (hname : Bare name)
    (h : Stacked (.operand name :: stack)) : Stacked (.call :: .operand name :: stack) := by
  generalize hs : Piece.operand name :: stack = whole at h
  cases h with
  | pile h =>
    subst hs
    cases h with
    | operand _ below => exact .pile (.call hname below)
  | @«open» pile below h hbelow =>
    cases h with
    | nil => cases hs
    | operand _ hpile =>
      cases hs
      exact .open (.call hname hpile) hbelow
    | operator => cases hs
    | call => cases hs
    | block => cases hs

theorem Stacked.under_call {name : List Char} {stack : List Piece}
    (h : Stacked (.call :: .operand name :: stack)) : Bare name ∧ Stacked stack := by
  generalize hs : Piece.call :: .operand name :: stack = whole at h
  cases h with
  | pile h =>
    subst hs
    cases h with
    | call hname below => exact ⟨hname, .pile below⟩
  | «open» h hbelow =>
    cases h with
    | call hname hpile =>
      cases hs
      exact ⟨hname, .open hpile hbelow⟩
    | _ => cases hs

theorem Pile.takeGroup_eq {pile : List Piece} (h : Pile pile) (depth : Nat)
    (group stack : List Piece) :
    Piece.takeGroup depth group (pile ++ stack) =
      Piece.takeGroup depth (pile.reverse ++ group) stack := by
  induction h generalizing depth group stack with
  | nil => rfl
  | operand _ _ ih => simp [Piece.takeGroup, ih]
  | operator _ ih => simp [Piece.takeGroup, ih]
  | call _ _ ih => simp [Piece.takeGroup, ih]
  | block _ _ _ ihi ihb => simp [Piece.takeGroup, ihi, ihb]

theorem Stacked.takeGroup_eq {stack group rest : List Piece} (h : Stacked stack)
    (htake : Piece.takeGroup 0 [] stack = some (group, rest)) :
    stack = group.reverse ++ Piece.lparen :: rest ∧ Pile group.reverse ∧ Stacked rest := by
  cases h with
  | pile h =>
    have hnone := h.takeGroup_eq 0 [] []
    rw [List.append_nil] at hnone
    rw [hnone] at htake
    cases htake
  | «open» h below =>
    rw [h.takeGroup_eq] at htake
    cases htake
    simpa using ⟨h, below⟩

theorem Pile.tidy_glued {pile : List Piece} (h : Pile pile)
    (hplain : pile.any Piece.isOperation = false) : Tidy (glued pile.reverse) := by
  induction h with
  | nil => exact tidy_nil
  | operand htidy _ ih =>
    have hbelow := ih (by simpa [Piece.isOperation] using hplain)
    simpa [glued, Piece.text] using hbelow.append htidy
  | operator => simp [Piece.isOperation] at hplain
  | call => simp [Piece.isOperation] at hplain
  | block _ hoperation =>
    rw [List.any_cons, List.any_append, hoperation] at hplain
    simp at hplain

theorem Stacked.block {inner stack : List Piece} (hinner : Pile inner)
    (hoperation : inner.any Piece.isOperation = true) (h : Stacked stack) :
    Stacked (.rparen :: (inner ++ Piece.lparen :: stack)) := by
  cases h with
  | pile h => exact .pile (.block hinner hoperation h)
  | «open» h below =>
    have hopen := Stacked.open (.block hinner hoperation h) below
    simpa using hopen

/-- What closing a group makes of a stack: the group stays, it becomes the argument of a call, or
its brackets go. -/
theorem Stacked.close_cases {stack group rest result : List Piece} (h : Stacked stack)
    (htake : Piece.takeGroup 0 [] stack = some (group, rest))
    (hclose : Piece.closeGroup group rest = .ok result) :
    Stacked result ∧ (∀ op, .operator op ∈ stack → .operator op ∈ result) ∧
      (result = .rparen :: stack ∨
        (∃ name below, stack = group.reverse ++ Piece.lparen :: .call :: .operand name :: below ∧
          result = .operand (name ++ '(' :: glued group ++ [')']) :: below) ∨
        (stack = group.reverse ++ Piece.lparen :: rest ∧ rest.head? ≠ some .call)) := by
  obtain ⟨hstack, hpile, hrest⟩ := h.takeGroup_eq htake
  unfold Piece.closeGroup at hclose
  split at hclose
  · rename_i hoperation
    cases hclose
    exact ⟨.block hpile (by simpa using hoperation) hrest, by simp [hstack],
      .inl (by rw [hstack]; rfl)⟩
  rename_i hplain
  -- From here on the group has no operation in it, so it takes no operator away.
  have hmem : ∀ op, .operator op ∈ stack → .operator op ∈ rest := by
    intro op hop
    rw [hstack, List.mem_append, List.mem_reverse] at hop
    rcases hop with hop | hop
    · exact absurd (List.any_eq_true.mpr ⟨_, hop, rfl⟩) hplain
    · simpa using hop
  have htidy : Tidy (glued group) := by
    have hreverse := hpile.tidy_glued (by simpa using hplain)
    rwa [List.reverse_reverse] at hreverse
  dsimp only at hclose
  split at hclose
  · rename_i name below
    cases hclose
    obtain ⟨hname, hbelow⟩ := hrest.under_call
    exact ⟨hbelow.push fun _ => .operand (htidy.call hname), fun op hop => by simpa using hmem op hop,
      .inr (.inl ⟨name, below, hstack, rfl⟩)⟩
  · cases hclose
  · rename_i hnot
    have hhead : rest.head? ≠ some .call := by
      intro hhead
      obtain ⟨below, rfl⟩ := List.head?_eq_some_iff.mp hhead
      exact hnot below rfl
    cases hclose
    split
    · exact ⟨hrest, hmem, .inr (.inr ⟨hstack, hhead⟩)⟩
    · exact ⟨hrest.push fun _ => .operand htidy, fun op hop => List.mem_cons_of_mem _ (hmem op hop),
        .inr (.inr ⟨hstack, hhead⟩)⟩

/-- The name of a call is on top of the stack when its bracket comes. -/
def NameOnTop (afterOperand : Bool) (stack : List Piece) : Prop :=
  afterOperand = true → ∃ name below, stack = .operand name :: below ∧ Bare name

theorem nameOnTop_false (stack : List Piece) : NameOnTop false stack := by
  simp [NameOnTop]

/-- Collapsing leaves no bracket without an operation in it, and every operator stays. -/
theorem stacked_collapseFrom {pieces stack result : List Piece} {b : Bool}
    (hpieces : ∀ p ∈ pieces, p ≠ .call ∧ ∀ name, p = .operand name → Bare name)
    (htop : NameOnTop b stack) (h : Stacked stack)
    (hcollapse : Piece.collapseFrom stack (Piece.markCalls b pieces) = .ok result) :
    Stacked result.reverse ∧
      ∀ op, .operator op ∈ stack ∨ .operator op ∈ pieces → .operator op ∈ result := by
  induction pieces generalizing b stack with
  | nil =>
    cases hcollapse
    simpa using h
  | cons p pieces ih =>
    have hrest := fun q hq => hpieces q (List.mem_cons_of_mem p hq)
    cases p with
    | operand text =>
      have htext : Bare text := (hpieces _ List.mem_cons_self).2 text rfl
      have hnext := ih hrest (fun _ => ⟨text, stack, rfl, htext⟩)
        (h.push fun _ => .operand htext.tidy) hcollapse
      simpa using hnext
    | operator op =>
      have hnext := ih hrest (nameOnTop_false _) (h.push fun _ => .operator) hcollapse
      exact ⟨hnext.1, by grind⟩
    | call => exact absurd rfl (hpieces _ List.mem_cons_self).1
    | lparen =>
      cases b with
      | false =>
        have hnext := ih hrest (nameOnTop_false _) (.open .nil h) hcollapse
        simpa using hnext
      | true =>
        obtain ⟨name, below, rfl, hname⟩ := htop rfl
        have hnext := ih hrest (nameOnTop_false _) (.open .nil (h.call hname)) hcollapse
        simpa using hnext
    | rparen =>
      simp only [Piece.markCalls, Piece.collapseFrom] at hcollapse
      split at hcollapse
      · cases hcollapse
      · rename_i group rest htake
        split at hcollapse
        · cases hcollapse
        · rename_i closed hclose
          obtain ⟨hclosed, hstays, -⟩ := h.close_cases htake hclose
          have hnext := ih hrest (nameOnTop_false _) hclosed hcollapse
          exact ⟨hnext.1, by grind⟩

def OpensCalls (stack : List Piece) : Prop :=
  ∀ front below, stack = front ++ Piece.lparen :: below → below.head? = some .call

theorem OpensCalls.push {stack : List Piece} (h : OpensCalls stack) {p : Piece}
    (hp : p ≠ .lparen) : OpensCalls (p :: stack) := by
  intro front below heq
  cases front with
  | nil => exact absurd (List.cons.inj heq).1 hp
  | cons q front => exact h front below (List.cons.inj heq).2

theorem OpensCalls.of_append {front stack : List Piece} (h : OpensCalls (front ++ stack)) :
    OpensCalls stack := by
  intro inner below heq
  exact h (front ++ inner) below (by rw [heq, List.append_assoc])

/-- Where every bracket is that of a call, collapsing changes no text. -/
theorem glued_collapseFrom {pieces stack result : List Piece} {b : Bool}
    (hpieces : ∀ p ∈ pieces, p ≠ .call ∧ ∀ name, p = .operand name → Bare name)
    (htop : NameOnTop b stack) (h : Stacked stack) (hcalls : OpensCalls stack)
    (hopens : opensAfterOperand b pieces = true)
    (hcollapse : Piece.collapseFrom stack (Piece.markCalls b pieces) = .ok result) :
    glued result = glued stack.reverse ++ glued pieces := by
  -- What is kept is the text of the stack together with that of the pieces to come.
  induction pieces generalizing b stack with
  | nil =>
    cases hcollapse
    simp [glued]
  | cons p pieces ih =>
    have hrest := fun q hq => hpieces q (List.mem_cons_of_mem p hq)
    cases p with
    | operand text =>
      have htext : Bare text := (hpieces _ List.mem_cons_self).2 text rfl
      have hglued := ih hrest (fun _ => ⟨text, stack, rfl, htext⟩)
        (h.push fun _ => .operand htext.tidy) (hcalls.push (by simp)) hopens hcollapse
      simpa [glued] using hglued
    | operator op =>
      have hglued := ih hrest (nameOnTop_false _) (h.push fun _ => .operator)
        (hcalls.push (by simp)) hopens hcollapse
      simpa [glued] using hglued
    | call => exact absurd rfl (hpieces _ List.mem_cons_self).1
    | lparen =>
      obtain ⟨rfl, hopens⟩ := Bool.and_eq_true_iff.mp hopens
      obtain ⟨name, below, rfl, hname⟩ := htop rfl
      have hcalled := hcalls.push (p := .call) (by simp)
      have hopened : OpensCalls (.lparen :: .call :: .operand name :: below) := by
        intro front under heq
        cases front with
        | nil =>
          cases heq
          rfl
        | cons q front => exact hcalled front under (List.cons.inj heq).2
      have hglued := ih hrest (nameOnTop_false _) (.open .nil (h.call hname)) hopened hopens
        hcollapse
      simpa [glued, Piece.text] using hglued
    | rparen =>
      simp only [Piece.markCalls, Piece.collapseFrom] at hcollapse
      split at hcollapse
      · cases hcollapse
      · rename_i group rest htake
        split at hcollapse
        · cases hcollapse
        · rename_i closed hclose
          obtain ⟨hclosed, -, hcases⟩ := h.close_cases htake hclose
          -- The group stays, or becomes an operand with its name. Without a name it would lose its
          -- brackets, but here every bracket belongs to a call.
          rcases hcases with rfl | ⟨name, below, rfl, rfl⟩ | ⟨rfl, hhead⟩
          · have hglued := ih hrest (nameOnTop_false _) hclosed (hcalls.push (by simp)) hopens
              hcollapse
            simpa [glued] using hglued
          · have hfront : OpensCalls
                ((group.reverse ++ [Piece.lparen, .call, .operand name]) ++ below) := by
              simpa using hcalls
            have hbelow : OpensCalls below := hfront.of_append
            have hglued := ih hrest (nameOnTop_false _) hclosed (hbelow.push (by simp)) hopens
              hcollapse
            simpa [glued, Piece.text] using hglued
          · exact absurd (hcalls group.reverse rest rfl) hhead

/-! ### Putting pieces in order -/

def operandText? : Piece → Option String
  | .operand text => some (String.ofList text)
  | _ => none

theorem operand?_of_step? {p : Piece} {s : Step} (h : p.step? = some s) : s.operand? = none := by
  cases p <;> cases h <;> rfl

theorem filterMap_step? (pieces : List Piece) :
    (pieces.filterMap Piece.step?).filterMap Step.operand? = [] := by
  rw [List.filterMap_eq_nil_iff]
  intro s hs
  obtain ⟨p, -, hp⟩ := List.mem_filterMap.mp hs
  exact operand?_of_step? hp

theorem exists_of_map_eq_ok {r : Except ExprError (List Step)} {f : List Step → List Step}
    {ss : List Step} (h : r.map f = .ok ss) : ∃ rest, r = .ok rest ∧ ss = f rest := by
  cases r with
  | error e => cases h
  | ok rest =>
    cases h
    exact ⟨rest, rfl, rfl⟩

/-- How steps are made of a piece and those that wait: an operand is a step at once, a bracket
opens, and any other piece lets some of those go that wait, but no open bracket, or all up to an open
bracket if it closes one. -/
theorem order_cons_cases {p : Piece} {pieces waiting : List Piece} {ss : List Step}
    (h : Piece.order waiting (p :: pieces) = .ok ss) :
    (∃ text rest, p = .operand text ∧ Piece.order waiting pieces = .ok rest ∧
      ss = .operand (String.ofList text) :: rest) ∨
    (p = .lparen ∧ Piece.order (.lparen :: waiting) pieces = .ok ss) ∨
    (∃ (ready kept : List Piece) (rest : List Step),
      waiting = ready ++ Piece.lparen :: kept ∧ .lparen ∉ ready ∧ p = .rparen ∧
      Piece.order kept pieces = .ok rest ∧ ss = ready.filterMap Piece.step? ++ rest) ∨
    (∃ (ready kept : List Piece) (rest : List Step),
      waiting = ready ++ kept ∧ .lparen ∉ ready ∧ p.isOperation = true ∧
      Piece.order (p :: kept) pieces = .ok rest ∧ ss = ready.filterMap Piece.step? ++ rest) := by
  have hopen : .lparen ∉ waiting.takeWhile Piece.isNotOpen := fun hmem =>
    absurd (List.all_eq_true.mp List.all_takeWhile _ hmem) (by decide)
  have hready (n : Nat) : .lparen ∉ waiting.takeWhile (Piece.isReady n) := fun hmem =>
    absurd (isNotOpen_of_isReady (List.all_eq_true.mp List.all_takeWhile _ hmem)) (by decide)
  cases p with
  | operand text =>
    obtain ⟨rest, hrest, hss⟩ := exists_of_map_eq_ok h
    exact .inl ⟨text, rest, rfl, hrest, hss⟩
  | lparen => exact .inr (.inl ⟨rfl, h⟩)
  | rparen =>
    simp only [Piece.order] at h
    have hsplit := List.takeWhile_append_dropWhile (p := Piece.isNotOpen) (l := waiting)
    have hhead := List.head?_dropWhile_not Piece.isNotOpen waiting
    split at h
    · cases h
    · rename_i first kept hdrop
      rw [hdrop] at hsplit hhead
      have hfirst : first = .lparen := by simpa [Piece.isNotOpen] using hhead
      obtain ⟨rest, hrest, hss⟩ := exists_of_map_eq_ok h
      exact .inr (.inr (.inl ⟨_, kept, rest, by rw [← hfirst, hsplit], hopen, rfl, hrest, hss⟩))
  | operator op =>
    obtain ⟨rest, hrest, hss⟩ := exists_of_map_eq_ok h
    exact .inr (.inr (.inr
      ⟨_, _, rest, List.takeWhile_append_dropWhile.symm, hready _, rfl, hrest, hss⟩))
  | call =>
    obtain ⟨rest, hrest, hss⟩ := exists_of_map_eq_ok h
    exact .inr (.inr (.inr
      ⟨_, _, rest, List.takeWhile_append_dropWhile.symm, hready _, rfl, hrest, hss⟩))

theorem operandText?_of_isOperation {p : Piece} (h : p.isOperation = true) :
    operandText? p = none := by
  cases p with
  | operand text => cases h
  | _ => rfl

theorem operands_of_order {pieces waiting : List Piece} {ss : List Step}
    (h : Piece.order waiting pieces = .ok ss) :
    ss.filterMap Step.operand? = pieces.filterMap operandText? := by
  induction pieces generalizing waiting ss with
  | nil =>
    simp only [Piece.order] at h
    split at h
    · cases h
      exact filterMap_step? waiting
    · cases h
  | cons p pieces ih =>
    rcases order_cons_cases h with ⟨text, rest, rfl, hrest, rfl⟩ | ⟨rfl, hrest⟩ |
      ⟨ready, kept, rest, -, -, rfl, hrest, rfl⟩ | ⟨ready, kept, rest, -, -, hp, hrest, rfl⟩
    · simp [Step.operand?, operandText?, ih hrest]
    · exact ih hrest
    · simp [filterMap_step?, List.filterMap_cons, operandText?, ih hrest]
    · simp [filterMap_step?, operandText?_of_isOperation hp, ih hrest]

theorem mem_of_order {pieces waiting : List Piece} {ss : List Step}
    (h : Piece.order waiting pieces = .ok ss) {q : Piece} {s : Step} (hs : q.step? = some s)
    (hq : q ∈ pieces ∨ q ∈ waiting) : s ∈ ss := by
  have hready : ∀ {ready : List Piece}, q ∈ ready → s ∈ ready.filterMap Piece.step? :=
    fun hmem => List.mem_filterMap.mpr ⟨q, hmem, hs⟩
  induction pieces generalizing waiting ss with
  | nil =>
    simp only [Piece.order] at h
    split at h
    · cases h
      exact hready (hq.resolve_left List.not_mem_nil)
    · cases h
  | cons p pieces ih =>
    rcases order_cons_cases h with ⟨text, rest, rfl, hrest, rfl⟩ | ⟨rfl, hrest⟩ |
      ⟨ready, kept, rest, rfl, -, rfl, hrest, rfl⟩ | ⟨ready, kept, rest, rfl, -, hp, hrest, rfl⟩
    all_goals
      have htail := ih hrest
      grind [Piece.step?]

theorem isOperand_of_mem_pile {pile : List Piece} (h : Pile pile)
    (hplain : pile.any Piece.isOperation = false) : ∀ p ∈ pile, p.isOperand = true := by
  induction h with
  | nil => simp
  | operand _ _ ih =>
    have hbelow := ih (by simpa [Piece.isOperation] using hplain)
    exact List.forall_mem_cons.mpr ⟨rfl, hbelow⟩
  | operator => simp [Piece.isOperation] at hplain
  | call => simp [Piece.isOperation] at hplain
  | block _ hoperation =>
    rw [List.any_cons, List.any_append, hoperation] at hplain
    simp at hplain

theorem isOperand_of_mem_stack {stack : List Piece} (h : Stacked stack)
    (hplain : stack.any Piece.isOperation = false) :
    ∀ p ∈ stack, p.isOperand = true ∨ p = .lparen := by
  induction h with
  | pile h => exact fun p hp => .inl (isOperand_of_mem_pile h hplain p hp)
  | «open» h _ ih =>
    simp only [List.any_append, List.any_cons, Bool.or_eq_false_iff] at hplain
    intro p hp
    rcases List.mem_append.mp hp with hp | hp
    · exact .inl (isOperand_of_mem_pile h hplain.1 p hp)
    · rcases List.mem_cons.mp hp with rfl | hp
      · exact .inr rfl
      · exact ih hplain.2.2 p hp

theorem lparen_notMem_of_order {pieces waiting : List Piece} {ss : List Step}
    (hpieces : ∀ p ∈ pieces, p.isOperand = true ∨ p = .lparen)
    (h : Piece.order waiting pieces = .ok ss) : .lparen ∉ waiting ∧ .lparen ∉ pieces := by
  induction pieces generalizing waiting ss with
  | nil =>
    simp only [Piece.order] at h
    split at h
    · rename_i hall
      refine ⟨fun hmem => ?_, List.not_mem_nil⟩
      simpa [Piece.isNotOpen] using List.all_eq_true.mp hall _ hmem
    · cases h
  | cons p pieces ih =>
    have hrest := fun q hq => hpieces q (List.mem_cons_of_mem p hq)
    cases p with
    | operand text =>
      obtain ⟨rest, htail, -⟩ := exists_of_map_eq_ok h
      obtain ⟨hwaiting, hnot⟩ := ih hrest htail
      exact ⟨hwaiting, by simpa using hnot⟩
    | lparen => exact absurd List.mem_cons_self (ih hrest h).1
    | _ => simpa [Piece.isOperand] using hpieces _ List.mem_cons_self

theorem eq_operand_of_order {pieces : List Piece} {text : String} (hstack : Stacked pieces.reverse)
    (h : Piece.order [] pieces = .ok [.operand text]) : pieces = [.operand text.toList] := by
  have hplain : pieces.any Piece.isOperation = false := by
    rw [List.any_eq_false]
    intro p hp hoperation
    obtain ⟨s, hs⟩ : ∃ s, p.step? = some s := by
      cases p <;> simp_all [Piece.isOperation, Piece.step?]
    have hmem := mem_of_order h hs (.inl hp)
    rw [List.mem_singleton] at hmem
    have hnone := operand?_of_step? hs
    rw [hmem] at hnone
    cases hnone
  have hpieces : ∀ p ∈ pieces, p.isOperand = true ∨ p = .lparen := by
    simpa using isOperand_of_mem_stack hstack (by simpa using hplain)
  have hopen := (lparen_notMem_of_order hpieces h).2
  have hoperands := operands_of_order h
  have htext : ∀ p ∈ pieces, ∃ name, p = .operand name := by
    intro p hp
    cases p with
    | operand name => exact ⟨name, rfl⟩
    | lparen => exact absurd hp hopen
    | _ => simpa [Piece.isOperand] using hpieces _ hp
  rcases pieces with _ | ⟨p, _ | ⟨q, rest⟩⟩
  · simp [Step.operand?] at hoperands
  · obtain ⟨name, rfl⟩ := htext p (by simp)
    have hname : text = String.ofList name := by
      simpa [Step.operand?, operandText?] using hoperands
    rw [hname, String.toList_ofList]
  · obtain ⟨name, rfl⟩ := htext p (by simp)
    obtain ⟨other, rfl⟩ := htext q (by simp)
    simp [Step.operand?, operandText?] at hoperands

/-! ### Reading -/

theorem Stacked.tidy {stack : List Piece} (h : Stacked stack) {text : List Char}
    (hmem : .operand text ∈ stack) : Tidy text := by
  have hpile : ∀ {pile : List Piece}, Pile pile → .operand text ∈ pile → Tidy text := by
    intro pile hpile hmem
    induction hpile with
    | nil => cases hmem
    | operand htidy _ ih => grind
    | operator _ ih => grind
    | call hbare _ ih => grind [Bare.tidy]
    | block _ _ _ ihi ihb => grind
  induction h with
  | pile h => exact hpile h hmem
  | «open» h _ ih => grind

theorem exists_pieces_of_read {text : String} {e : Expr} (h : Expr.read text = .ok e) :
    ∃ pieces, Piece.collapse (Piece.markCalls false (Piece.split text.toList)) = .ok pieces ∧
      Piece.order [] pieces = .ok e.program := by
  obtain ⟨ss, hss, he⟩ := Statement.exists_of_bind_eq_ok h
  obtain ⟨pieces, hcollapse, horder⟩ := Statement.exists_of_bind_eq_ok hss
  rw [Expr.eq_program_of_ofSteps he] at horder
  exact ⟨pieces, hcollapse, horder⟩

theorem tidy_of_read {text : String} {e : Expr} (h : Expr.read text = .ok e) :
    ∀ name ∈ e.operands, Tidy name.toList := by
  obtain ⟨pieces, hcollapse, horder⟩ := exists_pieces_of_read h
  have hstack := (stacked_collapseFrom (bare_of_mem_split _) (nameOnTop_false _) (.pile .nil)
    hcollapse).1
  intro name hname
  rw [← Expr.operands_program, operands_of_order horder] at hname
  obtain ⟨p, hp, htext⟩ := List.mem_filterMap.mp hname
  cases p with
  | operand inner =>
    cases htext
    rw [String.toList_ofList]
    exact hstack.tidy (by simpa using hp)
  | _ => cases htext

theorem eq_of_read_leaf {text name : String} (htidy : Tidy text.toList)
    (h : Expr.read text = .ok (.leaf name)) : name = text := by
  obtain ⟨pieces, hcollapse, horder⟩ := exists_pieces_of_read h
  obtain ⟨hstack, hstays⟩ := stacked_collapseFrom (bare_of_mem_split _) (nameOnTop_false _)
    (.pile .nil) hcollapse
  obtain rfl := eq_operand_of_order hstack horder
  have hoperator : (Piece.split text.toList).any Piece.isOperator = false := by
    rw [List.any_eq_false]
    intro p hp
    cases p with
    | operator op => simpa using hstays op (.inr hp)
    | _ => simp [Piece.isOperator]
  have hsplit : Piece.split text.toList = Piece.splitFrom none text.toList := by
    rw [Piece.split, Text.dropBlanks_of_solid htidy.not_blank]
  rw [hsplit] at hoperator
  have hglued := glued_collapseFrom (bare_of_mem_split _) (nameOnTop_false _) (.pile .nil)
    (by simp [OpensCalls]) (hsplit ▸ opensAfterOperand_splitFrom htidy.named hoperator) hcollapse
  rw [hsplit, glued_splitFrom] at hglued
  simpa [glued, Piece.text, String.toList_inj] using hglued

end Arithmetic

end DocQuery
