/-! Character classes given by tables of code point ranges. Where a table does not say otherwise, it
is that of Unicode 17. -/

namespace DocQuery

def inRanges (ranges : List (Nat × Nat)) (c : Char) : Bool :=
  ranges.any fun (lo, hi) => lo ≤ c.toNat && c.toNat ≤ hi

/-- The ranges are not empty, stand in increasing order and do not touch. -/
def isAscending : List (Nat × Nat) → Bool
  | [] => true
  | [(lo, hi)] => lo ≤ hi
  | (lo, hi) :: (lo', hi') :: ranges =>
    lo ≤ hi && hi + 1 < lo' && isAscending ((lo', hi') :: ranges)

end DocQuery
