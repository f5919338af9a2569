import DocQuery.Proofs.Condition.Expression
import DocQuery.Proofs.Token.Lexing
import DocQuery.Statement.ConditionList

/-! Comparisons as written in a `WHERE` clause: a path of names, a comparator and an integer or a
string, with blanks between them. -/

namespace DocQuery.Where

/-- A bare name that is not reserved. -/
structure Name where
  first : Char
  rest : List Char
  start : Lexeme.isNameStart first = true
  follow : ∀ c ∈ rest, Lexeme.isNameChar c = true
  free : (Token.word (String.ofList (first :: rest))).isAnyKeyword Token.reserved = false

def Name.text (n : Name) : List Char :=
  n.first :: n.rest

def Name.token (n : Name) : Token :=
  .word (String.ofList n.text)

def steps (names : List Name) : List Char :=
  names.flatMap fun n => '.' :: n.text

/-- The path to a field. It does not look like a placeholder for a quoted text. -/
structure Path where
  first : Name
  rest : List Name
  clear : Text.contains "__literal_".toList (first.text ++ steps rest) = false

def Path.text (p : Path) : List Char :=
  p.first.text ++ steps p.rest

inductive Comparator where
  | eq
  | notEq (spelling : Inequality)
  | lt
  | ltEq
  | gt
  | gtEq
deriving DecidableEq

namespace Comparator

def token : Comparator → Token
  | eq => .eq
  | notEq spelling => .notEq spelling
  | lt => .lt
  | ltEq => .ltEq
  | gt => .gt
  | gtEq => .gtEq

def text : Comparator → List Char
  | eq => ['=']
  | notEq .angled => ['<', '>']
  | notEq .bang => ['!', '=']
  | lt => ['<']
  | ltEq => ['<', '=']
  | gt => ['>']
  | gtEq => ['>', '=']

def atom (value : Value) : Comparator → Atom
  | eq => .equals value
  | notEq _ => .operator .ne value
  | lt => .operator .lt value
  | ltEq => .operator .lte value
  | gt => .operator .gt value
  | gtEq => .operator .gte value

end Comparator

/-- The integer that decimal digits spell, with or without a minus sign. -/
def signed (negative : Bool) (digits : List Char) : Int :=
  if negative then -(Nat.ofDigitChars 10 digits 0 : Int) else Nat.ofDigitChars 10 digits 0

inductive Operand where
  /-- For an integer of 64 bits. -/
  | integer (negative : Bool) (digits : List Char) (ne_nil : digits ≠ [])
    (isDigit : ∀ c ∈ digits, c.isDigit = true)
    (fits : -9223372036854775808 ≤ signed negative digits ∧
      signed negative digits ≤ 9223372036854775807)
  /-- A string in single quotes, without quotes or backslashes inside. -/
  | string (text : List Char) (plain : ∀ c ∈ text, Literal.isQuote c = false ∧ c ≠ '\\')

namespace Operand

def text : Operand → List Char
  | integer negative digits _ _ _ => if negative then '-' :: digits else digits
  | string text _ => '\'' :: (text ++ ['\''])

def value : Operand → Value
  | integer negative digits _ _ _ => .int (signed negative digits)
  | string text _ => .string (String.ofList text)

end Operand

structure Gap where
  text : List Char
  ne_nil : text ≠ []
  blank : ∀ c ∈ text, isBlank c = true

structure Test where
  path : Path
  before : Gap
  comparator : Comparator
  after : Gap
  operand : Operand

namespace Test

def text (t : Test) : List Char :=
  t.path.text ++ t.before.text ++ t.comparator.text ++ t.after.text ++ t.operand.text

def field (t : Test) : String :=
  String.ofList t.path.text

def holds (σ : Truth) (t : Test) : Bool :=
  σ t.field (t.comparator.atom t.operand.value)

end Test

/-! ### Lexemes -/

def stepLexemes (names : List Name) : List Lexeme :=
  names.flatMap fun n => [⟨[], ['.'], .dot⟩, ⟨[], n.text, n.token⟩]

def Path.lexemes (gap : List Char) (p : Path) : List Lexeme :=
  ⟨gap, p.first.text, p.first.token⟩ :: stepLexemes p.rest

def Operand.lexemes (gap : List Char) : Operand → List Lexeme
  | integer negative digits _ _ _ =>
    if negative then [⟨gap, ['-'], .minus⟩, ⟨[], digits, .number (String.ofList digits)⟩]
    else [⟨gap, digits, .number (String.ofList digits)⟩]
  | string text _ => [⟨gap, '\'' :: (text ++ ['\'']), .string (String.ofList text) .single⟩]

def Test.lexemes (gap : List Char) (t : Test) : List Lexeme :=
  t.path.lexemes gap ++
    ⟨t.before.text, t.comparator.text, t.comparator.token⟩ :: t.operand.lexemes t.after.text

theorem source_stepLexemes (names : List Name) :
    Lexeme.source (stepLexemes names) = steps names := by
  induction names with
  | nil => rfl
  | cons n names ih =>
    show Lexeme.source (_ :: _ :: stepLexemes names) = '.' :: n.text ++ steps names
    simp [ih]

theorem Path.source_lexemes (p : Path) (gap : List Char) :
    Lexeme.source (p.lexemes gap) = gap ++ p.text := by
  simp [lexemes, text, source_stepLexemes]

theorem Operand.source_lexemes (v : Operand) (gap : List Char) :
    Lexeme.source (v.lexemes gap) = gap ++ v.text := by
  cases v with
  | integer negative digits => cases negative <;> simp [lexemes, text]
  | string text => simp [lexemes, Operand.text]

theorem Test.source_lexemes (t : Test) (gap : List Char) :
    Lexeme.source (t.lexemes gap) = gap ++ t.text := by
  simp [lexemes, text, Path.source_lexemes, Operand.source_lexemes]

/-! ### Scanning -/

open Lexeme (Reads Scans Stops)

theorem Name.reads (n : Name) {rest : List Char}
    (h : ∀ c ∈ rest.head?, Lexeme.isNameChar c = false) : Reads n.text n.token rest :=
  Lexeme.reads_word n.start n.follow h

theorem reads_dot (n : Name) (rest : List Char) : Reads ['.'] .dot (n.text ++ rest) := by
  have hdigits : Lexeme.digitsLength (n.text ++ rest) = 0 := by
    simp [Lexeme.digitsLength, Name.text, Lexeme.isDigit_of_isNameStart n.start]
  refine .of_notMem (by decide) (by decide) ?_
  rw [List.nil_append, Lexeme.next, if_pos hdigits]
  rfl

theorem scans_stepLexemes {names : List Name} {rest : List Char}
    (h : ∀ c ∈ rest.head?, Lexeme.isNameChar c = false) : Scans (stepLexemes names) rest := by
  induction names with
  | nil => trivial
  | cons n names ih =>
    refine ⟨by simp, ?_, by simp, ?_, ih⟩
    · show Reads ['.'] .dot (n.text ++ Lexeme.source (stepLexemes names) ++ rest)
      rw [List.append_assoc]
      exact reads_dot n _
    · show Reads n.text n.token (Lexeme.source (stepLexemes names) ++ rest)
      apply n.reads
      intro c hc
      cases names with
      | nil => exact h c hc
      | cons m names =>
        cases hc
        decide

theorem Path.scans (p : Path) {gap rest : List Char} (hgap : ∀ c ∈ gap, isBlank c = true)
    (h : ∀ c ∈ rest.head?, Lexeme.isNameChar c = false) : Scans (p.lexemes gap) rest := by
  refine ⟨hgap, p.first.reads ?_, scans_stepLexemes h⟩
  intro c hc
  rw [source_stepLexemes] at hc
  cases hn : p.rest with
  | nil =>
    rw [hn] at hc
    exact h c hc
  | cons n names =>
    rw [hn] at hc
    cases hc
    decide

theorem ne_cons_of_head_blank {rest : List Char} (h : ∀ d ∈ rest.head?, isBlank d = true)
    {c : Char} (hc : isBlank c = false) (tail : List Char) : rest ≠ c :: tail := by
  rintro rfl
  rw [h c rfl] at hc
  cases hc

theorem Comparator.reads (c : Comparator) {rest : List Char}
    (h : ∀ d ∈ rest.head?, isBlank d = true) : Reads c.text c.token rest := by
  have heq := ne_cons_of_head_blank h (show isBlank '=' = false by decide)
  have hgt := ne_cons_of_head_blank h (show isBlank '>' = false by decide)
  cases c with
  | eq => exact .of_notMem (by decide) (by decide) rfl
  | notEq spelling =>
    cases spelling with
    | angled => exact .of_notMem (by decide) (by decide) rfl
    | bang => exact .of_notMem (by decide) (by decide) rfl
  | lt =>
    refine .of_notMem (by decide) (by decide) ?_
    rw [List.nil_append, Lexeme.next]
    · rfl
    · exact fun tail => heq ('>' :: tail)
    · exact heq
    · exact hgt
  | ltEq =>
    refine .of_notMem (by decide) (by decide) ?_
    rw [List.singleton_append, Lexeme.next]
    · rfl
    · exact hgt
  | gt =>
    refine .of_notMem (by decide) (by decide) ?_
    rw [List.nil_append, Lexeme.next]
    · rfl
    · exact heq
  | gtEq => exact .of_notMem (by decide) (by decide) rfl

theorem reads_minus {c : Char} (hc : c.isDigit = true) (text : List Char) :
    Reads ['-'] .minus (c :: text) := by
  refine .intro (by decide) ?_ rfl
  intro d hd
  cases hd
  refine ⟨?_, by simp⟩
  rintro ⟨_, rfl⟩
  exact absurd hc (by decide)

theorem Operand.scans (v : Operand) {gap rest : List Char} (hgap : ∀ c ∈ gap, isBlank c = true)
    (h : Stops rest) : Scans (v.lexemes gap) rest := by
  cases v with
  | integer negative digits hne hdigits =>
    have hnumber : Reads digits (.number (String.ofList digits)) rest :=
      Lexeme.reads_number hne hdigits h
    cases negative with
    | false => exact ⟨hgap, hnumber, trivial⟩
    | true =>
      refine ⟨hgap, ?_, by simp, hnumber, trivial⟩
      obtain ⟨c, tail, rfl⟩ := List.exists_cons_of_ne_nil hne
      exact reads_minus (hdigits c List.mem_cons_self) _
  | string text hplain =>
    refine ⟨hgap, Lexeme.reads_string .single (fun c hc => ⟨?_, (hplain c hc).2⟩)
      (h.head_ne (by decide) (by decide)), trivial⟩
    rintro rfl
    exact absurd (hplain _ hc).1 (by decide)

theorem Gap.head_blank (g : Gap) (rest : List Char) :
    ∀ c ∈ (g.text ++ rest).head?, isBlank c = true := by
  intro c hc
  obtain ⟨d, tail, htail⟩ := List.exists_cons_of_ne_nil g.ne_nil
  rw [htail] at hc
  cases hc
  exact g.blank c (by simp [htail])

theorem Gap.stops (g : Gap) (rest : List Char) : Stops (g.text ++ rest) :=
  fun c hc => .inl (g.head_blank rest c hc)

theorem Test.scans (t : Test) {gap rest : List Char} (hgap : ∀ c ∈ gap, isBlank c = true)
    (h : Stops rest) : Scans (t.lexemes gap) rest := by
  refine Lexeme.scans_append (t.path.scans hgap ?_) ⟨t.before.blank, ?_, ?_⟩
  · rw [Lexeme.source_cons, List.append_assoc, List.append_assoc]
    exact (t.before.stops _).not_class (fun _ => Lexeme.isBlank_of_isNameChar) (by decide)
  · apply t.comparator.reads
    rw [Operand.source_lexemes, List.append_assoc]
    exact t.after.head_blank _
  · exact t.operand.scans t.after.blank h

end DocQuery.Where
