import DocQuery.Proofs.Where.Leaf

/-! Formulas as written in a `WHERE` clause: comparisons joined by `AND` and `OR` in any spelling,
and grouped by brackets. They are read as the lexemes they are made of. -/

namespace DocQuery.Where

open Condition (Level)
open Lexeme (Reads Scans Stops)

inductive Connective where
  | and
  | or
deriving DecidableEq

namespace Connective

def keyword : Connective → String
  | and => "AND"
  | or => "OR"

def symbol : Connective → List Char
  | and => ['&', '&']
  | or => ['|', '|']

def symbolToken : Connective → Token
  | and => .andAnd
  | or => .orOr

end Connective

/-- How a connective is spelled: as a word in any letter case, or as a symbol. -/
inductive Spelling (c : Connective) where
  | word (text : List Char) (upper_eq : Text.upper text = c.keyword.toList)
  | symbol

namespace Spelling

variable {c : Connective}

def text : Spelling c → List Char
  | word text _ => text
  | symbol => c.symbol

def token : Spelling c → Token
  | word text _ => .word (String.ofList text)
  | symbol => c.symbolToken

end Spelling

structure Joint (c : Connective) where
  before : Gap
  spelling : Spelling c
  after : Gap

inductive Formula : Level → Type where
  | test (t : Test) : Formula .primary
  | group (opening closing : Text.Blanks) (e : Formula .disjunction) : Formula .primary
  | primary (p : Formula .primary) : Formula .conjunction
  | and (x : Formula .conjunction) (j : Joint .and) (p : Formula .primary) : Formula .conjunction
  | conjunction (x : Formula .conjunction) : Formula .disjunction
  | or (d : Formula .disjunction) (j : Joint .or) (x : Formula .conjunction) : Formula .disjunction

namespace Formula

def text {level : Level} : Formula level → List Char
  | test t => t.text
  | group a b e => '(' :: (a.val ++ e.text ++ b.val) ++ [')']
  | primary p => p.text
  | and x j p => x.text ++ j.before.text ++ j.spelling.text ++ j.after.text ++ p.text
  | conjunction x => x.text
  | or d j x => d.text ++ j.before.text ++ j.spelling.text ++ j.after.text ++ x.text

/-- The truth value of a formula; `AND` binds tighter than `OR`. -/
def eval {level : Level} (σ : Truth) : Formula level → Bool
  | test t => t.holds σ
  | group _ _ e => e.eval σ
  | primary p => p.eval σ
  | and x _ p => x.eval σ && p.eval σ
  | conjunction x => x.eval σ
  | or d _ x => d.eval σ || x.eval σ

def lexemes {level : Level} (gap : List Char) : Formula level → List Lexeme
  | test t => t.lexemes gap
  | group a b e => ⟨gap, ['('], .lparen⟩ :: (e.lexemes a.val ++ [⟨b.val, [')'], .rparen⟩])
  | primary p => p.lexemes gap
  | and x j p =>
    x.lexemes gap ++ ⟨j.before.text, j.spelling.text, j.spelling.token⟩ :: p.lexemes j.after.text
  | conjunction x => x.lexemes gap
  | or d j x =>
    d.lexemes gap ++ ⟨j.before.text, j.spelling.text, j.spelling.token⟩ :: x.lexemes j.after.text

theorem source_lexemes {level : Level} (e : Formula level) (gap : List Char) :
    Lexeme.source (e.lexemes gap) = gap ++ e.text := by
  induction e generalizing gap with
  | test t => exact t.source_lexemes gap
  | group a b e ih => simp [lexemes, text, ih]
  | primary p ih => exact ih gap
  | and x j p ihx ihp => simp [lexemes, text, ihx, ihp]
  | conjunction x ih => exact ih gap
  | or d j x ihd ihx => simp [lexemes, text, ihd, ihx]

end Formula

/-! ### Scanning -/

namespace Spelling

variable {c : Connective}

theorem isLetter_word {text : List Char} (h : Text.upper text = c.keyword.toList) :
    ∀ d ∈ text, isLetter d = true := by
  have hkeyword : ∀ d ∈ c.keyword.toList, isLetter d = true := by
    cases c <;> decide
  intro d hd
  apply isLetter_of_toUpper
  apply hkeyword
  rw [← h]
  exact List.mem_map_of_mem hd

theorem reads (s : Spelling c) {rest : List Char} (h : ∀ d ∈ rest.head?, isBlank d = true) :
    Reads s.text s.token rest := by
  cases s with
  | word text hupper =>
    refine Lexeme.reads_letters ?_ (isLetter_word hupper) fun e he => .inl (h e he)
    rintro rfl
    cases c <;> exact absurd hupper (by decide)
  | symbol =>
    cases c with
    | and => exact .of_notMem (by decide) (by decide) rfl
    | or => exact .of_notMem (by decide) (by decide) rfl

end Spelling

theorem stops_closing (blanks : Text.Blanks) (rest : List Char) :
    Stops (blanks.val ++ ')' :: rest) := by
  obtain ⟨blanks, hblanks⟩ := blanks
  intro c hc
  cases blanks with
  | nil =>
    cases hc
    exact .inr (by decide)
  | cons d blanks =>
    cases hc
    exact .inl (hblanks c List.mem_cons_self)

namespace Formula

variable {level : Level}

theorem scans_joint {c : Connective} (j : Joint c) {left right : List Lexeme}
    {text rest : List Char} (hsource : Lexeme.source right = j.after.text ++ text)
    (hleft : ∀ rest, Stops rest → Scans left rest) (hright : Scans right rest) :
    Scans (left ++ ⟨j.before.text, j.spelling.text, j.spelling.token⟩ :: right) rest := by
  refine Lexeme.scans_append (hleft _ ?_) ⟨j.before.blank, ?_, hright⟩
  · rw [Lexeme.source_cons, List.append_assoc, List.append_assoc]
    exact j.before.stops _
  · apply j.spelling.reads
    rw [hsource, List.append_assoc]
    exact j.after.head_blank _

theorem scans (e : Formula level) {gap rest : List Char} (hgap : ∀ c ∈ gap, isBlank c = true)
    (h : Stops rest) : Scans (e.lexemes gap) rest := by
  induction e generalizing gap rest with
  | test t => exact t.scans hgap h
  | group a b e ih =>
    refine ⟨hgap, .of_notMem (by decide) (by decide) rfl, ?_⟩
    refine Lexeme.scans_append (ih a.property ?_) ⟨b.property, ?_, trivial⟩
    · simpa using stops_closing b rest
    · exact .of_notMem (by decide) (by decide) rfl
  | primary p ih => exact ih hgap h
  | and x j p ihx ihp =>
    exact scans_joint j (p.source_lexemes _) (fun _ => ihx hgap) (ihp j.after.blank h)
  | conjunction x ih => exact ih hgap h
  | or d j x ihd ihx =>
    exact scans_joint j (x.source_lexemes _) (fun _ => ihd hgap) (ihx j.after.blank h)

end Formula

end DocQuery.Where
