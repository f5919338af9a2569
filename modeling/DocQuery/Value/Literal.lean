import DocQuery.Text.Basic
import DocQuery.Text.Numeral
import DocQuery.Value.Basic

/-! Literals in a condition: numbers, quoted strings, and the words `true`, `false` and `null`. -/

namespace DocQuery

/-- The parts of a number as written: `[+-] whole [. fraction] [e [+-] exponent]`. -/
structure Numeral where
  negative : Bool
  whole : List Char
  /-- The digits after the point, if there is a point. -/
  fraction : Option (List Char)
  /-- The sign and the digits of the exponent, if there is one. -/
  exponent : Option (Bool × List Char)
deriving DecidableEq, Repr

namespace Numeral

def splitSign : List Char → Bool × List Char
  | '+' :: text => (false, text)
  | '-' :: text => (true, text)
  | text => (false, text)

/-- What follows the mantissa: nothing, or an exponent with at least one digit. -/
def readExponent (mantissa : Option (Bool × List Char) → Numeral) : List Char → Option Numeral
  | [] => some (mantissa none)
  | c :: text =>
    let (negative, digits) := splitSign text
    if (c = 'e' ∨ c = 'E') ∧ digits ≠ [] ∧ digits.all isAnyDigit then
      some (mantissa (some (negative, digits)))
    else none

/-- Reads a number with optional blanks around it. Digits of any script are accepted, and there
must be one before or after the point. -/
def read? (text : List Char) : Option Numeral :=
  let (negative, text) := splitSign (Text.trim text)
  let whole := text.takeWhile isAnyDigit
  match text.dropWhile isAnyDigit with
  | '.' :: text =>
    let fraction := text.takeWhile isAnyDigit
    if whole.isEmpty && fraction.isEmpty then none
    else readExponent (⟨negative, whole, some fraction, ·⟩) (text.dropWhile isAnyDigit)
  | text =>
    if whole.isEmpty then none
    else readExponent (⟨negative, whole, none, ·⟩) text

def digits (n : Numeral) : List Char :=
  n.whole ++ n.fraction.getD []

/-- The exponent as written, zero when there is none. -/
def power (n : Numeral) : Int :=
  match n.exponent with
  | none => 0
  | some (negative, digits) =>
    if negative then -Int.ofNat (Text.decimalValue digits) else Text.decimalValue digits

/-- All digits are `0` to `9`. -/
def isAscii (n : Numeral) : Bool :=
  n.digits.all Char.isDigit && (n.exponent.map (·.2.all Char.isDigit)).getD true

/-- The integer that is spelled without a point or an exponent, if it fits in 64 bits. -/
def integer? (n : Numeral) : Option Int :=
  if n.fraction.isNone && n.exponent.isNone then
    let magnitude := Int.ofNat (Text.decimalValue n.whole)
    let value := if n.negative then -magnitude else magnitude
    if Value.fitsInt64 value then some value else none
  else none

/-- Integers of 64 bits are exact and all other numbers are doubles. Only the digits `0` to `9`
have a value. -/
def value? (n : Numeral) : Option Value :=
  if n.isAscii then
    match n.integer? with
    | some value => some (.int value)
    | none =>
      let places := (n.fraction.getD []).length
      some (.double (.ofDecimal n.negative (Text.decimalValue n.digits) (n.power - places)))
  else none

end Numeral

namespace Literal

def singleQuote : Char := '\''

def doubleQuote : Char := '"'

def backQuote : Char := '\x60'

def isNumber (text : List Char) : Bool :=
  (Numeral.read? text).isSome

def number? (text : List Char) : Option Value :=
  (Numeral.read? text).bind Numeral.value?

def isQuote (c : Char) : Bool :=
  c == singleQuote || c == doubleQuote || c == backQuote

def isQuoted : List Char → Bool
  | [] => false
  | c :: _ => isQuote c

/-- A quoted text without its first and its last character; any other text as it is. -/
def unquoted (text : List Char) : List Char :=
  if isQuoted text then (text.drop 1).dropLast else text

/-- A text that is not itself quoted but has a quote inside, such as `date('2020-12-12')`. -/
def isInlineCall (text : List Char) : Bool :=
  !isQuoted text && text.any fun c => c == singleQuote || c == doubleQuote

/-- The value of a quoted string, a number, or one of the words `true`, `false` and `null` in any
letter case. -/
def scalar? (text : List Char) : Option Value :=
  if isQuoted text then some (.string (String.ofList (unquoted text)))
  else
    let word := Text.lower text
    if word = "true".toList then some (.bool true)
    else if word = "false".toList then some (.bool false)
    else if word = "null".toList then some .null
    else number? text

end Literal

end DocQuery
