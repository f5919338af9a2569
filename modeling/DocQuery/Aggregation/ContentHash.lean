import DocQuery.Arithmetic.Expr

/-! A short name for an expression, computed from its content: the 64-bit FNV-1a hash of its
compact JSON text. -/

namespace DocQuery.Expr

def fnvStart : UInt64 := 0xcbf29ce484222325

def fnvPrime : UInt64 := 0x100000001b3

def fnv (bytes : List UInt8) : UInt64 :=
  bytes.foldl (fun hash byte => (hash ^^^ byte.toUInt64) * fnvPrime) fnvStart

/-- Sixteen hexadecimal digits. -/
def contentHash (e : Expr) : String :=
  let digits := Nat.toDigits 16 (fnv e.json.compact.toUTF8.toList).toNat
  String.ofList (List.replicate (16 - digits.length) '0' ++ digits)

end DocQuery.Expr
