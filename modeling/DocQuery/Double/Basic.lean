/-! Double-precision numbers as exact data, and the rounding of a decimal to the nearest one. -/

namespace DocQuery

/-- A double: `± significand * 2 ^ exponent`, or an infinity. Zero has a sign too. -/
inductive Double where
  | finite (negative : Bool) (significand : Nat) (exponent : Int)
  | infinite (negative : Bool)
deriving DecidableEq, Repr

namespace Double

/-- The exponent of the smallest positive double, and of all subnormal ones. -/
def minExponent : Int := -1074

/-- The exponent of the largest finite double. -/
def maxExponent : Int := 971

def isNegative : Double → Bool
  | finite negative _ _ => negative
  | infinite negative => negative

/-- Below the smallest normal double, zero excluded. -/
def isSubnormal : Double → Bool
  | finite _ m q => q == minExponent && 0 < m && m < Nat.pow 2 52
  | infinite _ => false

/-- The quotient `n / d` rounded to an integer; a half goes to the even neighbour. -/
def roundQuotient (n d : Nat) : Nat :=
  let floor := n / d
  let twice := 2 * (n % d)
  if twice < d then floor
  else if d < twice then floor + 1
  else floor + floor % 2

/-- The number of decimal digits of `n`, one for zero. -/
def decimalLength (n : Nat) : Nat :=
  (Nat.toDigits 10 n).length

/-- The largest `t` with `2 ^ t ≤ n / d`, for positive `n` and `d`. -/
def floorLog2 (n d : Nat) : Int :=
  let t : Int := (n.log2 : Int) - d.log2
  if d * Nat.pow 2 t.toNat ≤ n * Nat.pow 2 (-t).toNat then t else t - 1

/-- The double nearest to `n / d`, for positive `n` and `d`; a half goes to the even neighbour. -/
def ofQuotient (negative : Bool) (n d : Nat) : Double :=
  let q := max (floorLog2 n d - 52) minExponent
  let m := roundQuotient (n * Nat.pow 2 (-q).toNat) (d * Nat.pow 2 q.toNat)
  let (m, q) := if m = Nat.pow 2 53 then (Nat.pow 2 52, q + 1) else (m, q)
  if maxExponent < q then infinite negative else finite negative m q

/-- The double nearest to `± digits * 10 ^ exponent`. Decimals of more than 310 places before the
point are infinite and those below `10 ^ -330` are zero, so the powers formed here stay small. -/
def ofDecimal (negative : Bool) (digits : Nat) (exponent : Int) : Double :=
  let places := decimalLength digits + exponent
  if digits = 0 ∨ places < -330 then finite negative 0 minExponent
  else if 310 < places then infinite negative
  else ofQuotient negative (digits * Nat.pow 10 exponent.toNat) (Nat.pow 10 (-exponent).toNat)

end Double

end DocQuery
