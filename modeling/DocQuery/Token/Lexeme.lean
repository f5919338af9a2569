import DocQuery.Text.Letter
import DocQuery.Text.Numeral
import DocQuery.Token.Basic

/-! A source text as a list of lexemes: each holds a token, the characters it was read from, and
the gap of blanks and comments before it. Gaps and texts, one after the other, are the source. -/

namespace DocQuery

inductive LexFault where
  | danglingBackslash
  | unclosedQuote
  | loneBang
  | unexpected (c : Char)
deriving DecidableEq, Repr

/-- Where a character stands: characters before it, and line and column from one. -/
structure Position where
  offset : Nat
  line : Nat
  column : Nat
deriving DecidableEq, Repr

structure LexError where
  fault : LexFault
  position : Position
deriving DecidableEq, Repr

structure Lexeme where
  gap : List Char
  text : List Char
  token : Token
deriving DecidableEq, Repr

def LexFault.message : LexFault → String
  | danglingBackslash => "Unterminated string: unexpected end of input after backslash"
  | unclosedQuote => "Unterminated string: missing closing quote"
  | loneBang => "Unexpected '!' (did you mean '!=' or NOT?)"
  | unexpected c => "Unexpected character '" ++ String.ofList [c] ++ "'"

def LexError.message (e : LexError) : String :=
  e.fault.message ++ " at line " ++ toString e.position.line ++ ", column "
    ++ toString e.position.column

def Position.ofOffset (source : List Char) (offset : Nat) : Position :=
  let before := source.take offset
  ⟨offset, before.count '\n' + 1, (before.reverse.takeWhile (· != '\n')).length + 1⟩

namespace Lexeme

/-- Inside a gap: between comments, in a comment that ends with the line, or in a comment that
ends with `*/`. -/
inductive GapState where
  | blanks
  | line
  | block

/-- Splits off blanks and comments. A comment may end with the text. -/
def splitGap : GapState → List Char → List Char × List Char
  | _, [] => ([], [])
  | .blanks, [c] => if isBlank c then ([c], []) else ([], [c])
  | .blanks, c :: d :: text =>
    if isBlank c then
      let (gap, rest) := splitGap .blanks (d :: text)
      (c :: gap, rest)
    else if c = '-' ∧ d = '-' then
      let (gap, rest) := splitGap .line text
      (c :: d :: gap, rest)
    else if c = '/' ∧ d = '*' then
      let (gap, rest) := splitGap .block text
      (c :: d :: gap, rest)
    else ([], c :: d :: text)
  | .line, c :: text =>
    let (gap, rest) := splitGap (if c = '\n' then .blanks else .line) text
    (c :: gap, rest)
  | .block, [c] => ([c], [])
  | .block, c :: d :: text =>
    if c = '*' ∧ d = '/' then
      let (gap, rest) := splitGap .blanks text
      (c :: d :: gap, rest)
    else
      let (gap, rest) := splitGap .block (d :: text)
      (c :: gap, rest)

def isNameChar (c : Char) : Bool :=
  isLetter c || isNumeral c || c == '_' || c == '$'

def isNameStart (c : Char) : Bool :=
  isLetter c || c == '_' || c == '@'

def digitsLength (text : List Char) : Nat :=
  (text.takeWhile Char.isDigit).length

/-- A point counts only when a digit follows it. -/
def fractionLength : List Char → Nat
  | '.' :: text => if digitsLength text = 0 then 0 else digitsLength text + 1
  | _ => 0

/-- An exponent counts only when it has a digit; its sign is optional. -/
def exponentLength : List Char → Nat
  | c :: text =>
    if c = 'e' ∨ c = 'E' then
      let sign := match text with
        | d :: _ => if d = '+' ∨ d = '-' then 1 else 0
        | [] => 0
      let digits := digitsLength (text.drop sign)
      if digits = 0 then 0 else digits + sign + 1
    else 0
  | [] => 0

def numberLength (text : List Char) : Nat :=
  let whole := digitsLength text
  let fraction := fractionLength (text.drop whole)
  whole + fraction + exponentLength (text.drop (whole + fraction))

/-- The character that stands for itself or for a control character after a backslash. -/
def unescape (c : Char) : Char :=
  if c = 'n' then '\n'
  else if c = 't' then '\t'
  else if c = 'r' then '\r'
  else if c = '0' then '\x00'
  else c

/-- Adds a decoded character that was written with `n` characters. -/
def consDecoded (c : Char) (n : Nat) :
    Except LexFault (List Char × Nat) → Except LexFault (List Char × Nat)
  | .ok (value, length) => .ok (c :: value, length + n)
  | .error fault => .error fault

/-- Reads a quoted text after its opening quote: its value, and how many characters it takes up to
and with its closing quote. A doubled quote stands for one; `escapes` says whether a backslash
changes the next character. -/
def readQuoted (quote : Char) (escapes : Bool) : List Char → Except LexFault (List Char × Nat)
  | [] => .error .unclosedQuote
  | [c] =>
    if c = quote then .ok ([], 1)
    else if c = '\\' ∧ escapes then .error .danglingBackslash
    else .error .unclosedQuote
  | c :: d :: text =>
    if c = quote then
      if d = quote then consDecoded quote 2 (readQuoted quote escapes text) else .ok ([], 1)
    else if c = '\\' ∧ escapes then consDecoded (unescape d) 2 (readQuoted quote escapes text)
    else consDecoded c 1 (readQuoted quote escapes (d :: text))

def quotedToken (quote : Char) (escapes : Bool) (make : String → Token) (text : List Char) :
    Except LexFault (Token × Nat) := do
  let (value, length) ← readQuoted quote escapes text
  return (make (String.ofList value), length)

/-- The token that starts with `c` before `text`, and how many characters of `text` it takes. -/
def next (c : Char) (text : List Char) : Except LexFault (Token × Nat) :=
  match c with
  | '(' => .ok (.lparen, 0)
  | ')' => .ok (.rparen, 0)
  | ',' => .ok (.comma, 0)
  | ';' => .ok (.semicolon, 0)
  | '.' =>
    if digitsLength text = 0 then .ok (.dot, 0)
    else
      let n := numberLength text
      .ok (.number (String.ofList ('0' :: '.' :: text.take n)), n)
  | '+' => .ok (.plus, 0)
  | '-' => .ok (.minus, 0)
  | '*' => .ok (.star, 0)
  | '/' => .ok (.slash, 0)
  | '%' => .ok (.percent, 0)
  | '=' => .ok (.eq, 0)
  | '<' =>
    match text with
    | '=' :: '>' :: _ => .ok (.nullSafeEq, 2)
    | '=' :: _ => .ok (.ltEq, 1)
    | '>' :: _ => .ok (.notEq .angled, 1)
    | _ => .ok (.lt, 0)
  | '>' =>
    match text with
    | '=' :: _ => .ok (.gtEq, 1)
    | _ => .ok (.gt, 0)
  | '!' =>
    match text with
    | '=' :: _ => .ok (.notEq .bang, 1)
    | _ => .error .loneBang
  | '&' =>
    match text with
    | '&' :: _ => .ok (.andAnd, 1)
    | _ => .error (.unexpected '&')
  | '|' =>
    match text with
    | '|' :: _ => .ok (.orOr, 1)
    | _ => .error (.unexpected '|')
  | '\'' => quotedToken '\'' true (.string · .single) text
  | '"' => quotedToken '"' true (.string · .double) text
  | '\x60' => quotedToken '\x60' false .quotedName text
  | c =>
    if c.isDigit then
      let n := numberLength (c :: text)
      .ok (.number (String.ofList ((c :: text).take n)), n - 1)
    else if isNameStart c then
      let name := text.takeWhile isNameChar
      .ok (.word (String.ofList (c :: name)), name.length)
    else .error (.unexpected c)

theorem length_splitGap_le (state : GapState) (text : List Char) :
    (splitGap state text).2.length ≤ text.length := by
  fun_induction splitGap state text <;> grind

/-- The lexemes of a source text, the last of which is the end of the text. A fault comes with
the number of characters from its token on. -/
def all (source : List Char) : Except (LexFault × Nat) (List Lexeme) :=
  match _h : splitGap .blanks source with
  | (gap, []) => .ok [⟨gap, [], .eof⟩]
  | (gap, c :: text) =>
    match next c text with
    | .error fault => .error (fault, text.length + 1)
    | .ok (token, n) =>
      match all (text.drop n) with
      | .error e => .error e
      | .ok lexemes => .ok (⟨gap, c :: text.take n, token⟩ :: lexemes)
termination_by source.length
decreasing_by
  have := length_splitGap_le .blanks source
  simp only [_h, List.length_cons, List.length_drop] at this ⊢
  omega

def ofSource (source : String) : Except LexError (List Lexeme) :=
  match all source.toList with
  | .ok lexemes => .ok lexemes
  | .error (fault, left) =>
    .error ⟨fault, .ofOffset source.toList (source.toList.length - left)⟩

theorem ofSource_eq_ok_iff {source : String} {ls : List Lexeme} :
    ofSource source = .ok ls ↔ all source.toList = .ok ls := by
  unfold ofSource
  split <;> simp_all

/-- The stretch of source from the first lexeme of a run to its last. -/
def runText : List Lexeme → List Char
  | [] => []
  | first :: rest => first.text ++ rest.flatMap fun l => l.gap ++ l.text

/-- The characters that a run of lexemes takes, its first gap left out. -/
def runLength (run : List Lexeme) : Nat :=
  (runText run).length

/-- Each lexeme with the offsets at which it starts and ends. -/
def spans (start : Nat) : List Lexeme → List (Nat × Nat × Lexeme)
  | [] => []
  | l :: ls =>
    let first := start + l.gap.length
    let last := first + l.text.length
    (first, last, l) :: spans last ls

end Lexeme

end DocQuery
