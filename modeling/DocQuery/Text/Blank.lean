import DocQuery.Text.Ranges

/-! Blank characters: the White_Space property. -/

namespace DocQuery

/-- Blank characters as inclusive ranges in increasing order. -/
def blankRanges : List (Nat × Nat) :=
  [(0x9, 0xd), (0x20, 0x20), (0x85, 0x85), (0xa0, 0xa0), (0x1680, 0x1680), (0x2000, 0x200a),
   (0x2028, 0x2029), (0x202f, 0x202f), (0x205f, 0x205f), (0x3000, 0x3000)]

theorem isAscending_blankRanges : isAscending blankRanges = true := by
  decide

def isBlank (c : Char) : Bool :=
  inRanges blankRanges c

end DocQuery
