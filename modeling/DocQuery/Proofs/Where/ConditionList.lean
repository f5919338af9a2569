import DocQuery.Proofs.Where.Formula

/-! The condition list that is read from a formula: its expression laid flat. -/

namespace DocQuery.Where

open Condition (Level Expression)
open Statement (Part splitConditions consLeaf endsConditions depthAfter mentioned?)

/-! ### Tokens inside a comparison -/

/-- The token belongs to a comparison wherever it stands, and is no bracket. -/
structure Inner (token : Token) : Prop where
  not_ends : ∀ depth, endsConditions depth token = false
  not_connective : token.connective? = none
  not_between : token.isKeyword "BETWEEN" = false
  depth_eq : ∀ depth, depthAfter depth token = depth

theorem Name.isKeyword_eq_false (n : Name) {keyword : String} (h : keyword ∈ Token.reserved) :
    n.token.isKeyword keyword = false := by
  have hfree : n.token.isAnyKeyword Token.reserved = false := n.free
  rw [Token.isAnyKeyword, List.any_eq_false] at hfree
  simpa using hfree keyword h

theorem inner_word {word : String}
    (h : ∀ k ∈ "AND" :: "OR" :: "BETWEEN" :: Token.clauseWords,
      (Token.word word).isKeyword k = false) : Inner (.word word) := by
  obtain ⟨hand, hor, hbetween, hclause⟩ : _ ∧ _ ∧ _ ∧ ∀ k ∈ Token.clauseWords, _ := by
    simpa only [List.forall_mem_cons] using h
  have hany : (Token.word word).isAnyKeyword Token.clauseWords = false := by
    simpa [Token.isAnyKeyword] using hclause
  refine ⟨fun depth => ?_, ?_, hbetween, fun _ => rfl⟩
  · show (depth == 0 && (Token.word word).isAnyKeyword Token.clauseWords) = false
    rw [hany, Bool.and_false]
  · show (if (Token.word word).isKeyword "AND" then _ else _) = none
    rw [hand, if_neg (by decide), hor, if_neg (by decide)]

theorem Name.inner (n : Name) : Inner n.token := by
  have hreserved : ∀ k ∈ "AND" :: "OR" :: "BETWEEN" :: Token.clauseWords, k ∈ Token.reserved := by
    decide
  exact inner_word fun k hk => n.isKeyword_eq_false (hreserved k hk)

theorem Path.inner (p : Path) (gap : List Char) : ∀ l ∈ p.lexemes gap, Inner l.token := by
  have hdot : Inner .dot := ⟨fun _ => Bool.and_false _, rfl, rfl, fun _ => rfl⟩
  intro l hl
  rcases List.mem_cons.mp hl with rfl | hl
  · exact p.first.inner
  · obtain ⟨n, _, hl⟩ := List.mem_flatMap.mp hl
    rcases List.mem_cons.mp hl with rfl | hl
    · exact hdot
    · rw [List.mem_singleton.mp hl]
      exact n.inner

theorem Comparator.inner (c : Comparator) : Inner c.token := by
  cases c <;> exact ⟨fun _ => Bool.and_false _, rfl, rfl, fun _ => rfl⟩

theorem inner_number (text : String) : Inner (.number text) :=
  ⟨fun _ => Bool.and_false _, rfl, rfl, fun _ => rfl⟩

theorem Operand.inner (v : Operand) (gap : List Char) : ∀ l ∈ v.lexemes gap, Inner l.token := by
  have hminus : Inner .minus := ⟨fun _ => Bool.and_false _, rfl, rfl, fun _ => rfl⟩
  have hstring : ∀ text, Inner (.string text .single) :=
    fun _ => ⟨fun _ => Bool.and_false _, rfl, rfl, fun _ => rfl⟩
  cases v with
  | integer negative digits => cases negative <;> simp [lexemes, hminus, inner_number]
  | string text => simp [lexemes, hstring]

theorem Test.inner (t : Test) (gap : List Char) : ∀ l ∈ t.lexemes gap, Inner l.token := by
  intro l hl
  rcases List.mem_append.mp hl with hl | hl
  · exact t.path.inner gap l hl
  rcases List.mem_cons.mp hl with rfl | hl
  · exact t.comparator.inner
  · exact t.operand.inner _ l hl

/-! ### Splitting -/

/-- The lexemes are not split, whatever stands around them. -/
def Stays (ls : List Lexeme) : Prop :=
  ∀ depth between rest, splitConditions depth between (ls ++ rest) =
    (ls.foldr consLeaf (splitConditions depth between rest).1,
      (splitConditions depth between rest).2)

theorem Stays.append {ls ms : List Lexeme} (hl : Stays ls) (hm : Stays ms) : Stays (ls ++ ms) := by
  intro depth between rest
  rw [List.append_assoc, hl, hm, List.foldr_append]

theorem stays_of_inner {ls : List Lexeme} (h : ∀ l ∈ ls, Inner l.token) : Stays ls := by
  intro depth between rest
  induction ls with
  | nil => rfl
  | cons l ls ih =>
    have hl := h l List.mem_cons_self
    have hls := ih fun m hm => h m (List.mem_cons_of_mem l hm)
    simp [splitConditions, hl.not_ends, hl.not_connective, hl.not_between, hl.depth_eq, hls]

theorem splitConditions_open (gap : List Char) (depth : Nat) (between : Bool)
    (rest : List Lexeme) : splitConditions depth between (⟨gap, ['('], .lparen⟩ :: rest) =
      (consLeaf ⟨gap, ['('], .lparen⟩ (splitConditions (depth + 1) between rest).1,
        (splitConditions (depth + 1) between rest).2) := by
  have hends : endsConditions depth .lparen = false := Bool.and_false _
  rw [splitConditions, if_neg (by simp [hends])]
  simp only [Token.connective?, Token.isKeyword, Bool.false_eq_true, if_false, Bool.or_false]
  rfl

theorem splitConditions_close (gap : List Char) (depth : Nat) (between : Bool)
    (rest : List Lexeme) : splitConditions (depth + 1) between (⟨gap, [')'], .rparen⟩ :: rest) =
      (consLeaf ⟨gap, [')'], .rparen⟩ (splitConditions depth between rest).1,
        (splitConditions depth between rest).2) := by
  have hends : endsConditions (depth + 1) .rparen = false := by simp [endsConditions]
  rw [splitConditions, if_neg (by simp [hends])]
  simp only [Token.connective?, Token.isKeyword, Bool.false_eq_true, if_false, Bool.or_false]
  rfl

theorem Stays.brackets {ls : List Lexeme} (h : Stays ls) (opening closing : List Char) :
    Stays (⟨opening, ['('], .lparen⟩ :: (ls ++ [⟨closing, [')'], .rparen⟩])) := by
  intro depth between rest
  rw [List.cons_append, List.append_assoc, List.singleton_append, splitConditions_open, h,
    splitConditions_close, List.foldr_cons, List.foldr_append]
  rfl

namespace Spelling

variable {c : Connective}

theorem isKeyword_word {text : List Char} (h : Text.upper text = c.keyword.toList)
    (keyword : String) :
    (Token.word (String.ofList text)).isKeyword keyword = (c.keyword.toList == keyword.toList) := by
  rw [Token.isKeyword, String.toList_ofList, h]

theorem not_ends (s : Spelling c) (depth : Nat) : endsConditions depth s.token = false := by
  cases s with
  | word text hupper =>
    have hclause : (Token.word (String.ofList text)).isAnyKeyword Token.clauseWords = false := by
      simp only [Token.isAnyKeyword, isKeyword_word hupper]
      cases c <;> decide
    show (depth == 0 && (Token.word (String.ofList text)).isAnyKeyword Token.clauseWords) = false
    rw [hclause, Bool.and_false]
  | symbol => cases c <;> exact Bool.and_false _

theorem connective?_token (s : Spelling c) : s.token.connective? = some c.keyword := by
  cases s with
  | word text hupper =>
    show (if (Token.word (String.ofList text)).isKeyword "AND" then some "AND"
      else if (Token.word (String.ofList text)).isKeyword "OR" then some "OR" else none) = _
    rw [isKeyword_word hupper, isKeyword_word hupper]
    cases c <;> rfl
  | symbol => cases c <;> rfl

end Spelling

theorem splitConditions_joint {c : Connective} (j : Joint c) (depth : Nat) (rest : List Lexeme) :
    splitConditions depth false (⟨j.before.text, j.spelling.text, j.spelling.token⟩ :: rest) =
      (.connective c.keyword :: (splitConditions depth false rest).1,
        (splitConditions depth false rest).2) := by
  simp [splitConditions, j.spelling.not_ends, j.spelling.connective?_token]

namespace Formula

variable {level : Level}

def expression {level : Level} : Formula level → Expression level
  | test t => .leaf t.leaf
  | group a b e => .group a b e.expression
  | primary p => .primary p.expression
  | and x _ p => .and x.expression p.expression
  | conjunction x => .conjunction x.expression
  | or d _ x => .or d.expression x.expression

def parts {level : Level} (gap : List Char) : Formula level → List Part → List Part
  | test t, ps => (t.lexemes gap).foldr consLeaf ps
  | group a b e, ps =>
    consLeaf ⟨gap, ['('], .lparen⟩ (e.parts a.val (consLeaf ⟨b.val, [')'], .rparen⟩ ps))
  | primary p, ps => p.parts gap ps
  | and x j p, ps => x.parts gap (.connective "AND" :: p.parts j.after.text ps)
  | conjunction x, ps => x.parts gap ps
  | or d j x, ps => d.parts gap (.connective "OR" :: x.parts j.after.text ps)

theorem splitConditions_lexemes (e : Formula level) (gap : List Char) (depth : Nat)
    (rest : List Lexeme) : splitConditions depth false (e.lexemes gap ++ rest) =
      (e.parts gap (splitConditions depth false rest).1,
        (splitConditions depth false rest).2) := by
  induction e generalizing gap depth rest with
  | test t => exact stays_of_inner (t.inner gap) depth false rest
  | group a b e ih =>
    rw [lexemes, List.cons_append, List.append_assoc, List.singleton_append, splitConditions_open,
      ih, splitConditions_close, parts]
  | primary p ih => exact ih gap depth rest
  | and x j p ihx ihp =>
    rw [lexemes, List.append_assoc, List.cons_append, ihx, splitConditions_joint, ihp, parts]
    rfl
  | conjunction x ih => exact ih gap depth rest
  | or d j x ihd ihx =>
    rw [lexemes, List.append_assoc, List.cons_append, ihd, splitConditions_joint, ihx, parts]
    rfl

end Formula

/-! ### The conditions of the parts -/

/-- The parts do not go on with a comparison. -/
def StartsJoined (ps : List Part) : Prop :=
  ∀ p ∈ ps.head?, ∃ word, p = .connective word

theorem startsJoined_nil : StartsJoined [] := by
  simp [StartsJoined]

theorem startsJoined_cons (word : String) (ps : List Part) :
    StartsJoined (.connective word :: ps) := by
  simp [StartsJoined]

theorem foldr_consLeaf {run : List Lexeme} (hne : run ≠ []) {ps : List Part}
    (h : StartsJoined ps) : run.foldr consLeaf ps = .leaf run :: ps := by
  induction run with
  | nil => exact absurd rfl hne
  | cons l run ih =>
    cases run with
    | nil =>
      cases ps with
      | nil => rfl
      | cons p ps =>
        obtain ⟨word, rfl⟩ := h p rfl
        rfl
    | cons m run => rw [List.foldr_cons, ih (List.cons_ne_nil m run), consLeaf]

theorem runText_append {ls : List Lexeme} (h : ls ≠ []) (ms : List Lexeme) :
    Lexeme.runText (ls ++ ms) = Lexeme.runText ls ++ Lexeme.source ms := by
  obtain ⟨l, ls, rfl⟩ := List.exists_cons_of_ne_nil h
  simp [Lexeme.runText, Lexeme.source]

/-- What the brackets in front of a comparison put into its text, with the gap after them. -/
def openText (opening : List Lexeme) (gap : List Char) : List Char :=
  if opening.isEmpty then [] else Lexeme.runText opening ++ gap

theorem openText_concat (opening : List Lexeme) (gap blanks : List Char) :
    openText (opening ++ [⟨gap, ['('], .lparen⟩]) blanks =
      openText opening gap ++ '(' :: blanks := by
  by_cases h : opening = []
  · subst h
    rfl
  · have hempty : opening.isEmpty = false := by simpa using h
    simp [openText, hempty, runText_append h]

theorem Test.lexemes_ne_nil (t : Test) (gap : List Char) : t.lexemes gap ≠ [] :=
  List.cons_ne_nil _ _

theorem Test.runText_lexemes (t : Test) (gap : List Char) :
    Lexeme.runText (t.lexemes gap) = t.text := by
  have h : gap ++ Lexeme.runText (t.lexemes gap) = Lexeme.source (t.lexemes gap) := by
    simp [lexemes, Path.lexemes, Lexeme.runText, Lexeme.source]
  rw [t.source_lexemes] at h
  exact List.append_cancel_left h

theorem Test.runText_padded (t : Test) (gap : List Char) (opening closing : List Lexeme) :
    Lexeme.runText (opening ++ (t.lexemes gap ++ closing)) =
      openText opening gap ++ t.text ++ Lexeme.source closing := by
  by_cases h : opening = []
  · subst h
    rw [List.nil_append, runText_append (t.lexemes_ne_nil gap), t.runText_lexemes]
    rfl
  · have hempty : opening.isEmpty = false := by simpa using h
    rw [runText_append h, Lexeme.source_append, t.source_lexemes]
    simp [openText, hempty]

def Silent (ls : List Lexeme) : Prop :=
  ∀ l ∈ ls, mentioned? l.token = none

theorem Test.condition_padded (t : Test) (gap : List Char) {opening closing : List Lexeme}
    (hopening : Silent opening) (hclosing : Silent closing) :
    (Part.leaf (opening ++ (t.lexemes gap ++ closing))).condition =
      .leaf (String.ofList (openText opening gap ++ t.leaf.text ++ Lexeme.source closing))
        t.leaf.names := by
  have hnone : ∀ {ls : List Lexeme}, Silent ls → Statement.mentions ls = [] :=
    List.filterMap_eq_nil_iff.mpr
  rw [Part.condition, Statement.textOf, t.runText_padded, Statement.mentions_append,
    Statement.mentions_append, hnone hopening, hnone hclosing, t.mentioned,
    List.nil_append, List.append_nil]
  rfl

theorem silent_nil : Silent [] := by
  simp [Silent]

theorem Silent.concat {ls : List Lexeme} (h : Silent ls) {l : Lexeme}
    (hl : mentioned? l.token = none) : Silent (ls ++ [l]) := by
  intro m hm
  rcases List.mem_append.mp hm with hm | hm
  · exact h m hm
  · rwa [List.mem_singleton.mp hm]

theorem Silent.cons {ls : List Lexeme} (h : Silent ls) {l : Lexeme}
    (hl : mentioned? l.token = none) : Silent (l :: ls) := by
  intro m hm
  rcases List.mem_cons.mp hm with rfl | hm
  · exact hl
  · exact h m hm

namespace Formula

variable {level : Level}

/-- The parts of a formula are its expression laid flat. The lexemes around it go into the texts of
its first and its last comparison. -/
theorem map_condition_parts (e : Formula level) (gap : List Char) {opening closing : List Lexeme}
    (hopening : Silent opening) (hclosing : Silent closing) {ps : List Part}
    (h : StartsJoined ps) :
    (opening.foldr consLeaf (e.parts gap (closing.foldr consLeaf ps))).map Part.condition =
      e.expression.conditions (openText opening gap) (Lexeme.source closing) ++
        ps.map Part.condition := by
  induction e generalizing gap opening closing ps with
  | test t =>
    have hne : opening ++ (t.lexemes gap ++ closing) ≠ [] := by simp [t.lexemes_ne_nil gap]
    have hrun := foldr_consLeaf hne h
    rw [List.foldr_append, List.foldr_append] at hrun
    rw [parts, hrun, List.map_cons, t.condition_padded gap hopening hclosing]
    rfl
  | group a b e ih =>
    -- The brackets of the group join the lexemes around it.
    have hparts := ih a.val (hopening.concat (l := ⟨gap, ['('], .lparen⟩) rfl)
      (hclosing.cons (l := ⟨b.val, [')'], .rparen⟩) rfl) h
    rw [List.foldr_append, openText_concat] at hparts
    simpa [parts, expression, Expression.conditions] using hparts
  | primary p ih => exact ih gap hopening hclosing h
  | and x j p ihx ihp =>
    have hp : (p.parts j.after.text (closing.foldr consLeaf ps)).map Part.condition =
        p.expression.conditions [] (Lexeme.source closing) ++ ps.map Part.condition :=
      ihp j.after.text silent_nil hclosing h
    have hx := ihx gap hopening silent_nil
      (startsJoined_cons "AND" (p.parts j.after.text (closing.foldr consLeaf ps)))
    rw [List.map_cons, hp] at hx
    simpa [parts, expression, Expression.conditions, Part.condition] using hx
  | conjunction x ih => exact ih gap hopening hclosing h
  | or d j x ihd ihx =>
    have hx : (x.parts j.after.text (closing.foldr consLeaf ps)).map Part.condition =
        x.expression.conditions [] (Lexeme.source closing) ++ ps.map Part.condition :=
      ihx j.after.text silent_nil hclosing h
    have hd := ihd gap hopening silent_nil
      (startsJoined_cons "OR" (x.parts j.after.text (closing.foldr consLeaf ps)))
    rw [List.map_cons, hx] at hd
    simpa [parts, expression, Expression.conditions, Part.condition] using hd

/-- The condition list of a formula, up to where the clause ends. -/
theorem readConditions_lexemes (e : Formula .disjunction) (gap : List Char) {l : Lexeme}
    {ls : List Lexeme} (hl : endsConditions 0 l.token = true) :
    Statement.readConditions (e.lexemes gap ++ l :: ls) =
      (e.expression.conditions [] [], l :: ls) := by
  have hend : splitConditions 0 false (l :: ls) = ([], l :: ls) := by
    rw [splitConditions, if_pos hl]
  have hparts : (e.parts gap []).map Part.condition = e.expression.conditions [] [] ++ [] :=
    e.map_condition_parts gap silent_nil silent_nil startsJoined_nil
  rw [Statement.readConditions, e.splitConditions_lexemes, hend]
  simp only [hparts, List.append_nil]

end Formula

end DocQuery.Where
