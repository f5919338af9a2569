import DocQuery.Statement.Items

/-! The flat condition list of a `WHERE` or `HAVING` clause. -/

namespace DocQuery.Statement

/-- A part of a condition list: the lexemes of a comparison, or a connective. -/
inductive Part where
  | leaf (run : List Lexeme)
  | connective (word : String)

/-- A condition list ends with the statement, and outside brackets at a closing bracket or the next
clause. -/
def endsConditions (depth : Nat) (token : Token) : Bool :=
  match token with
  | .eof => true
  | .semicolon => true
  | .rparen => depth == 0
  | _ => depth == 0 && token.isAnyKeyword Token.clauseWords

def consLeaf (l : Lexeme) : List Part → List Part
  | .leaf run :: parts => .leaf (l :: run) :: parts
  | parts => .leaf [l] :: parts

/-- Splits at every connective, inside brackets too. Only the `AND` that belongs to a `BETWEEN`
stays inside its comparison. -/
def splitConditions (depth : Nat) (between : Bool) : List Lexeme → List Part × List Lexeme
  | [] => ([], [])
  | l :: ls =>
    if endsConditions depth l.token then ([], l :: ls)
    else
      match l.token.connective? with
      | none =>
        let between := between || l.token.isKeyword "BETWEEN"
        let (parts, rest) := splitConditions (depthAfter depth l.token) between ls
        (consLeaf l parts, rest)
      | some word =>
        if word = "AND" ∧ between then
          let (parts, rest) := splitConditions depth false ls
          (consLeaf l parts, rest)
        else
          let (parts, rest) := splitConditions depth between ls
          (.connective word :: parts, rest)

theorem length_splitConditions_le (depth : Nat) (between : Bool) (ls : List Lexeme) :
    (splitConditions depth between ls).2.length ≤ ls.length := by
  fun_induction splitConditions depth between ls <;> grind

/-- The name or string that a token mentions. -/
def mentioned? (token : Token) : Option String :=
  match token with
  | .string value _ => some value
  | _ => token.identifier?

def mentions (run : List Lexeme) : List String :=
  run.filterMap fun l => mentioned? l.token

theorem mentions_nil : mentions [] = [] :=
  rfl

theorem mentions_cons (l : Lexeme) (run : List Lexeme) :
    mentions (l :: run) =
      match mentioned? l.token with
      | none => mentions run
      | some name => name :: mentions run := by
  cases h : mentioned? l.token <;> simp [mentions, h]

theorem mentions_append (run other : List Lexeme) :
    mentions (run ++ other) = mentions run ++ mentions other :=
  List.filterMap_append

/-- The distinct names, in order of first occurrence. -/
def distinct (names : List String) : List String :=
  names.foldl (fun seen name => if seen.contains name then seen else seen ++ [name]) []

def Part.condition : Part → Condition
  | leaf run => .leaf (textOf run) (distinct (mentions run))
  | connective word => .connective word

def readConditions (ls : List Lexeme) : List Condition × List Lexeme :=
  let (parts, rest) := splitConditions 0 false ls
  (parts.map Part.condition, rest)

theorem length_readConditions_le (ls : List Lexeme) :
    (readConditions ls).2.length ≤ ls.length :=
  length_splitConditions_le 0 false ls

end DocQuery.Statement
