import DocQuery.Value.Literal

/-! Masking: quoted texts are replaced by placeholders while a comparison is split into words, so
that blanks and operators inside them do not count. -/

namespace DocQuery

/-- Placeholders and the quoted texts they stand for, in the order in which they were made. -/
abbrev Mask := List (List Char × List Char)

namespace Mask

def placeholder (n : Nat) : List Char :=
  "__literal_".toList ++ Nat.toDigits 10 n ++ "__".toList

def quoteChars : List Char :=
  [Literal.singleQuote, Literal.doubleQuote, Literal.backQuote]

/-- The quoted texts to look for: each name that is not empty, in each kind of quotes. -/
def candidates (names : List String) : List (List Char) :=
  (names.filter (· != "")).flatMap fun name =>
    quoteChars.map fun quote => quote :: name.toList ++ [quote]

/-- Masks every occurrence of one quoted text, if there is any. -/
def hide (state : Mask × List Char) (literal : List Char) : Mask × List Char :=
  let (mask, text) := state
  if Text.contains literal text then
    let holder := placeholder mask.length
    (mask ++ [(holder, literal)], Text.replaceAll literal holder text)
  else state

/-- The masked text and the mask that restores it. -/
def protect (names : List String) (text : List Char) : Mask × List Char :=
  (candidates names).foldl hide ([], text)

def restore (mask : Mask) (text : List Char) : List Char :=
  mask.foldl (fun text (holder, literal) => Text.replaceAll holder literal text) text

/-- Also gives the contents of the quoted texts that were put back. -/
def restoreCollecting (mask : Mask) (text : List Char) : List Char × List String :=
  mask.foldl
    (fun (text, contents) (holder, literal) =>
      if Text.contains holder text then
        (Text.replaceAll holder literal text,
          contents ++ [String.ofList (Literal.unquoted literal)])
      else (text, contents))
    (text, [])

end Mask

end DocQuery
