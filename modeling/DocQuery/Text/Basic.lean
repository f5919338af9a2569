import DocQuery.Text.Blank

/-! Operations on text as a list of characters: trimming, splitting into words and fields,
searching and replacing. -/

namespace DocQuery.Text

def trimStart (text : List Char) : List Char :=
  text.dropWhile isBlank

def trimEnd (text : List Char) : List Char :=
  (text.reverse.dropWhile isBlank).reverse

def trim (text : List Char) : List Char :=
  trimEnd (trimStart text)

/-- Drops every leading and trailing character of `set`. -/
def trimOf (set text : List Char) : List Char :=
  ((text.dropWhile set.contains).reverse.dropWhile set.contains).reverse

def dropBlanks (text : List Char) : List Char :=
  text.filter (!isBlank ·)

/-- Letters `A` to `Z` become `a` to `z`; everything else stays. -/
def lower (text : List Char) : List Char :=
  text.map Char.toLower

/-- Letters `a` to `z` become `A` to `Z`; everything else stays. -/
def upper (text : List Char) : List Char :=
  text.map Char.toUpper

def consFirst (c : Char) : List (List Char) → List (List Char)
  | [] => [[c]]
  | part :: parts => (c :: part) :: parts

/-- The maximal runs of characters that are not blank, in order. -/
def words : List Char → List (List Char)
  | [] => []
  | [c] => if isBlank c then [] else [[c]]
  | c :: d :: text =>
    if isBlank c then words (d :: text)
    else if isBlank d then [c] :: words (d :: text)
    else consFirst c (words (d :: text))

def unwords (parts : List (List Char)) : List Char :=
  [' '].intercalate parts

/-- The stretches between the occurrences of `sep`: always one more than there are
occurrences. -/
def fields (sep : Char) : List Char → List (List Char)
  | [] => [[]]
  | c :: text => if c = sep then [] :: fields sep text else consFirst c (fields sep text)

def contains (part : List Char) : List Char → Bool
  | [] => part.isEmpty
  | c :: text => part.isPrefixOf (c :: text) || contains part text

/-- Replaces from left to right, after `skip` characters that belong to the last match. -/
def replaceFrom (part new : List Char) : Nat → List Char → List Char
  | _, [] => []
  | skip + 1, _ :: text => replaceFrom part new skip text
  | 0, c :: text =>
    if part.isPrefixOf (c :: text) then new ++ replaceFrom part new (part.length - 1) text
    else c :: replaceFrom part new 0 text

/-- Replaces every occurrence of the non-empty text `part`; occurrences are taken from left to
right and do not overlap. -/
def replaceAll (part new text : List Char) : List Char :=
  replaceFrom part new 0 text

/-- Removes the first occurrence of `part`, if there is one. -/
def eraseFirst (part : List Char) : List Char → List Char
  | [] => []
  | c :: text =>
    if part.isPrefixOf (c :: text) then (c :: text).drop part.length
    else c :: eraseFirst part text

/-- The characters before the first `c`, or the whole text when there is none. -/
def before (c : Char) (text : List Char) : List Char :=
  text.takeWhile (· != c)

/-- Drops `c` from the front, if it is there. -/
def stripFirst (c : Char) : List Char → List Char
  | [] => []
  | d :: text => if d = c then text else d :: text

/-- Drops `c` from the end, if it is there. -/
def stripLast (c : Char) (text : List Char) : List Char :=
  (stripFirst c text.reverse).reverse

/-- The number that decimal digits `0` to `9` spell. -/
def decimalValue (digits : List Char) : Nat :=
  digits.foldl (fun value c => 10 * value + (c.toNat - '0'.toNat)) 0

/-- The decimal digits of `n`, with zeros in front up to `width` digits. -/
def padded (width n : Nat) : List Char :=
  let digits := Nat.toDigits 10 n
  List.replicate (width - digits.length) '0' ++ digits

theorem length_trimStart_le (text : List Char) : (trimStart text).length ≤ text.length :=
  (List.dropWhile_sublist _).length_le

theorem length_trimEnd_le (text : List Char) : (trimEnd text).length ≤ text.length := by
  simpa [trimEnd] using (List.dropWhile_sublist (p := isBlank) (l := text.reverse)).length_le

theorem length_trim_le (text : List Char) : (trim text).length ≤ text.length :=
  Nat.le_trans (length_trimEnd_le _) (length_trimStart_le _)

theorem length_stripFirst_le (c : Char) (text : List Char) :
    (stripFirst c text).length ≤ text.length := by
  cases text with
  | nil => simp [stripFirst]
  | cons d text =>
    by_cases h : d = c <;> simp [stripFirst, h]

theorem length_stripLast_le (c : Char) (text : List Char) :
    (stripLast c text).length ≤ text.length := by
  simpa [stripLast] using length_stripFirst_le c text.reverse

end DocQuery.Text
