import DocQuery.Statement.Basic
import DocQuery.Statement.Mismatch

/-! Items separated by commas: select lists, and the items of `GROUP BY` and `ORDER BY`. Brackets keep
an item together. -/

namespace DocQuery.Statement

/-- An item ends with the statement, and outside brackets at a comma, a closing bracket or the next
clause. -/
def endsItem (depth : Nat) (token : Token) : Bool :=
  match token with
  | .eof => true
  | .semicolon => true
  | .comma => depth == 0
  | .rparen => depth == 0
  | _ => depth == 0 && token.isAnyKeyword Token.clauseWords

def depthAfter (depth : Nat) : Token → Nat
  | .lparen => depth + 1
  | .rparen => depth - 1
  | _ => depth

def consRun (l : Lexeme) : List (List Lexeme) → List (List Lexeme)
  | [] => [[l]]
  | run :: runs => (l :: run) :: runs

/-- The runs of lexemes between commas, and what follows the last of them. -/
def splitItems (depth : Nat) : List Lexeme → List (List Lexeme) × List Lexeme
  | [] => ([[]], [])
  | l :: ls =>
    if endsItem depth l.token then
      if l.token = .comma then
        let (runs, rest) := splitItems 0 ls
        ([] :: runs, rest)
      else ([[]], l :: ls)
    else
      let (runs, rest) := splitItems (depthAfter depth l.token) ls
      (consRun l runs, rest)

theorem length_splitItems_le (depth : Nat) (ls : List Lexeme) :
    (splitItems depth ls).2.length ≤ ls.length := by
  fun_induction splitItems depth ls <;> grind

def textOf (run : List Lexeme) : String :=
  String.ofList (Lexeme.runText run)

/-! ### The select list -/

/-- The first word with an opening bracket right after it. -/
def calledFunction : List Lexeme → Option String
  | l :: m :: ls =>
    match l.token, m.token with
    | .word name, .lparen => some name
    | _, _ => calledFunction (m :: ls)
  | _ => none

/-- Splits `expr AS name` and `expr name`, given in reverse. -/
def splitLabel : List Lexeme → Option String × List Lexeme
  | last :: as :: l :: ls =>
    if as.token.isKeyword "AS" then (last.token.name?, l :: ls)
    else if last.token.identifier?.isSome && as.token.endsOperand then
      (last.token.name?, as :: l :: ls)
    else (none, last :: as :: l :: ls)
  | [last, l] =>
    if last.token.identifier?.isSome && l.token.endsOperand then (last.token.name?, [l])
    else (none, [last, l])
  | ls => (none, ls)

def selectItem (run : List Lexeme) : SelectItem :=
  let (label, expr) := splitLabel run.reverse
  let expr := expr.reverse
  ⟨textOf expr, calledFunction expr, label⟩

/-- The items of a select list; an empty one is left out. -/
def readSelectItems (ls : List Lexeme) : List SelectItem × List Lexeme :=
  let (runs, rest) := splitItems 0 ls
  ((runs.filter (!·.isEmpty)).map selectItem, rest)

/-! ### Directions -/

/-- Splits a direction off the end; ascending without one. -/
def splitDirection (run : List Lexeme) : List Lexeme × Direction :=
  match run.getLast? with
  | none => (run, .ascending)
  | some last =>
    if last.token.isKeyword "DESC" then (run.dropLast, .descending)
    else if last.token.isKeyword "ASC" then (run.dropLast, .ascending)
    else (run, .ascending)

def readOrderItems (ls : List Lexeme) : List OrderItem × List Lexeme :=
  let (runs, rest) := splitItems 0 ls
  let items := (runs.map splitDirection).filter (!·.1.isEmpty)
  (items.map fun (run, direction) => ⟨textOf run, direction⟩, rest)

theorem length_readOrderItems_le (ls : List Lexeme) :
    (readOrderItems ls).2.length ≤ ls.length :=
  length_splitItems_le 0 ls

end DocQuery.Statement
