import DocQuery.Text.Basic
import DocQuery.Text.Quoted

/-! The tokens of SELECT statements. Keywords are words, told apart in any letter case. -/

namespace DocQuery

/-- The two ways to write "not equal". -/
inductive Inequality where
  /-- `<>` -/
  | angled
  /-- `!=` -/
  | bang
deriving DecidableEq, Repr

inductive Quote where
  | single
  | double
deriving DecidableEq, Repr

inductive Token where
  /-- A number as written, with a zero in front of a leading point. -/
  | number (text : String)
  /-- A string with its escapes decoded. -/
  | string (value : String) (quote : Quote)
  /-- A bare name or a keyword. -/
  | word (name : String)
  /-- A name between back-quotes. -/
  | quotedName (name : String)
  | eq
  | notEq (spelling : Inequality)
  /-- `<=>` -/
  | nullSafeEq
  | lt
  | ltEq
  | gt
  | gtEq
  | plus
  | minus
  | star
  | slash
  | percent
  | andAnd
  | orOr
  | lparen
  | rparen
  | comma
  | dot
  | semicolon
  | eof
deriving DecidableEq, Repr

def Inequality.text : Inequality → String
  | angled => "<>"
  | bang => "!="

def Quote.char : Quote → Char
  | single => '\''
  | double => '"'

namespace Token

/-- Words that never name a table or a field. -/
def reserved : List String :=
  ["ALL", "AND", "AS", "ASC", "BETWEEN", "BY", "DESC", "DISTINCT", "EXISTS", "FALSE", "FOR",
   "FORCE", "FROM", "GROUP", "HAVING", "IGNORE", "IN", "INDEX", "IS", "KEY", "LIKE", "LIMIT",
   "NOT", "NULL", "OFFSET", "OR", "ORDER", "REGEXP", "SELECT", "TRUE", "USE", "WHERE", "XOR"]

def clauseWords : List String :=
  ["FROM", "WHERE", "GROUP", "HAVING", "ORDER", "LIMIT", "USE", "FORCE", "IGNORE"]

/-- The token is the keyword, given in upper case. -/
def isKeyword (keyword : String) : Token → Bool
  | word name => Text.upper name.toList == keyword.toList
  | _ => false

def isAnyKeyword (keywords : List String) (token : Token) : Bool :=
  keywords.any token.isKeyword

/-- The name of a table or a field: a word that is not reserved, or a quoted name. -/
def identifier? (token : Token) : Option String :=
  match token with
  | word name => if token.isAnyKeyword reserved then none else some name
  | quotedName name => some name
  | _ => none

/-- Any word, quoted name or string, reserved or not. -/
def name? : Token → Option String
  | word name => some name
  | quotedName name => some name
  | string value _ => some value
  | _ => none

/-- The token joins two conditions: `AND`, `OR`, `&&` or `||`. -/
def connective? (token : Token) : Option String :=
  match token with
  | andAnd => some "AND"
  | orOr => some "OR"
  | _ =>
    if token.isKeyword "AND" then some "AND"
    else if token.isKeyword "OR" then some "OR"
    else none

/-- The token can be the last one of an operand. -/
def endsOperand : Token → Bool
  | rparen => true
  | number _ => true
  | string _ _ => true
  | token => token.identifier?.isSome

def describe : Token → String
  | number text => "Number(" ++ Text.messageQuoted text ++ ")"
  | string value quote =>
    "String \x7b value: " ++ Text.messageQuoted value ++ ", quote: "
      ++ (match quote with | .single => "'\\''" | .double => "'\"'") ++ " \x7d"
  | word name => "Word(" ++ Text.messageQuoted name ++ ")"
  | quotedName name => "QuotedIdentifier(" ++ Text.messageQuoted name ++ ")"
  | eq => "Eq"
  | notEq spelling => "NotEq(" ++ Text.messageQuoted spelling.text ++ ")"
  | nullSafeEq => "NullSafeEq"
  | lt => "Lt"
  | ltEq => "LtEq"
  | gt => "Gt"
  | gtEq => "GtEq"
  | plus => "Plus"
  | minus => "Minus"
  | star => "Star"
  | slash => "Slash"
  | percent => "Percent"
  | andAnd => "AndAnd"
  | orOr => "OrOr"
  | lparen => "LParen"
  | rparen => "RParen"
  | comma => "Comma"
  | dot => "Dot"
  | semicolon => "Semicolon"
  | eof => "Eof"

end Token

end DocQuery
