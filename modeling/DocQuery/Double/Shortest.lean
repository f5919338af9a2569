import DocQuery.Double.Basic

/-! The fewest decimal digits that read back as a given double. All comparisons are exact: the
reals that round to a double form an interval, and a decimal is tested against its two ends. -/

namespace DocQuery

/-- The decimal `digits * 10 ^ exponent`. -/
structure Decimal where
  digits : Nat
  exponent : Int
deriving DecidableEq, Repr

/-- Which of two equally near decimals is taken. -/
inductive Tie where
  | toEven
  | up
deriving DecidableEq, Repr

namespace Double

/-- `a * 10 ^ i` against `n * 2 ^ j`. -/
def compareScaled (a : Nat) (i : Int) (n : Nat) (j : Int) : Ordering :=
  compare (a * Nat.pow 10 i.toNat * Nat.pow 2 (-j).toNat)
    (n * Nat.pow 2 j.toNat * Nat.pow 10 (-i).toNat)

/-- The decimal is among the reals whose nearest double is `m * 2 ^ q`. Just below a power of two
the doubles lie twice as close as above it. -/
def readsBack (m : Nat) (q : Int) (d : Decimal) : Bool :=
  let low := if m = Nat.pow 2 52 ∧ minExponent < q then 4 * m - 1 else 4 * m - 2
  let atLow := compareScaled d.digits d.exponent low (q - 2)
  let atHigh := compareScaled d.digits d.exponent (4 * m + 2) (q - 2)
  if m % 2 = 0 then atLow != .lt && atHigh != .gt else atLow == .gt && atHigh == .lt

/-- The `E` with `10 ^ E ≤ m * 2 ^ q < 10 ^ (E + 1)`, for positive `m`. -/
def floorLog10 (m : Nat) (q : Int) : Int :=
  let n := m * Nat.pow 2 q.toNat
  let d := Nat.pow 2 (-q).toNat
  if d ≤ n then decimalLength (n / d) - 1
  else -(decimalLength ((d + n - 1) / n - 1) : Int)

/-- Of the two decimals around `m * 2 ^ q` on the grid of step `10 ^ s`, the nearest that reads
back. -/
def gridNeighbour (tie : Tie) (m : Nat) (q s : Int) : Option Decimal :=
  let n := m * Nat.pow 2 q.toNat * Nat.pow 10 (-s).toNat
  let d := Nat.pow 2 (-q).toNat * Nat.pow 10 s.toNat
  let floor := n / d
  let twice := 2 * (n % d)
  let upFirst := d < twice || (twice == d && (tie == .up || floor % 2 == 1))
  let below : Decimal := ⟨floor, s⟩
  let above : Decimal := ⟨floor + 1, s⟩
  let candidates := if upFirst then [above, below] else [below, above]
  candidates.find? (readsBack m q)

/-- The exact decimal value of `m * 2 ^ q`. -/
def exactDecimal (m : Nat) (q : Int) : Decimal :=
  ⟨m * Nat.pow 2 q.toNat * Nat.pow 5 (-q).toNat, min q 0⟩

/-- The decimal with the fewest digits that reads back as `m * 2 ^ q`, and of those the nearest. -/
def shortest (tie : Tie) (m : Nat) (q : Int) : Decimal :=
  if m = 0 then ⟨0, 0⟩ else
  let e := floorLog10 m q
  let found := (List.range 17).findSome? fun (n : Nat) => gridNeighbour tie m q (e - n)
  found.getD (exactDecimal m q)

end Double

/-- The significant digits, without trailing zeros, and the power of ten of the first of them. -/
def Decimal.scientific (d : Decimal) : List Char × Int :=
  let digits := Nat.toDigits 10 d.digits
  let kept := (digits.reverse.dropWhile (· == '0')).reverse
  (if kept.isEmpty then ['0'] else kept, d.exponent + digits.length - 1)

end DocQuery
