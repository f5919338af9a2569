import DocQuery.Double.Shortest

/-! How a double is written: which of two equally near decimals is taken, where positional
writing ends, and whether an integral value keeps a fraction digit. -/

namespace DocQuery.Double

/-- The decisions of one way to write doubles. -/
structure Layout where
  tie : Tie
  /-- Powers of ten of the first digit that are written positionally; all when absent. -/
  positional : Option (Int × Int)
  /-- An integral value written positionally ends in `.0`. -/
  fraction : Bool

/-- Digits whose first has the weight `10 ^ e`, without an exponent part. -/
def writePositional (fraction : Bool) (digits : List Char) (e : Int) : List Char :=
  if e < 0 then ['0', '.'] ++ List.replicate (-e - 1).toNat '0' ++ digits
  else
    let whole := digits.take (e.toNat + 1)
    let rest := digits.drop (e.toNat + 1)
    let padding := List.replicate (e.toNat + 1 - whole.length) '0'
    whole ++ padding ++
      (if !rest.isEmpty then '.' :: rest else if fraction then ['.', '0'] else [])

/-- Digits whose first has the weight `10 ^ e`, with an exponent part that shows its sign. -/
def writeScientific (digits : List Char) (e : Int) : List Char :=
  let mantissa := match digits with
    | d :: rest@(_ :: _) => d :: '.' :: rest
    | short => short
  mantissa ++ ['e', if e < 0 then '-' else '+'] ++ Nat.toDigits 10 e.natAbs

def Layout.isPositional (layout : Layout) (e : Int) : Bool :=
  match layout.positional with
  | none => true
  | some (lo, hi) => lo ≤ e && e < hi

/-- The text of a finite double; `none` for the infinities, which each format names itself. -/
def Layout.write (layout : Layout) : Double → Option String
  | infinite _ => none
  | finite negative m q =>
    let (digits, e) := (shortest layout.tie m q).scientific
    let magnitude :=
      if layout.isPositional e then writePositional layout.fraction digits e
      else writeScientific digits e
    some (String.ofList (if negative then '-' :: magnitude else magnitude))

/-- A number in a JSON text: positional from `0.00001` up to sixteen places before the point,
always with a fraction, otherwise with an exponent. -/
def jsonLayout : Layout := ⟨.toEven, some (-5, 16), true⟩

/-- The decimal string of a typed double: positional however long, always with a fraction. -/
def typedLayout : Layout := ⟨.up, none, true⟩

/-- A double inside a message or a pattern: positional however long, integral values bare. -/
def plainLayout : Layout := ⟨.up, none, false⟩

end DocQuery.Double
