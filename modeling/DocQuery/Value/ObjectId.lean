/-! Object ids and their hexadecimal digits. -/

namespace DocQuery

/-- A document's twelve-byte key, as twenty-four hexadecimal digits. -/
structure ObjectId where
  nibbles : List (Fin 16)
deriving DecidableEq, Repr

inductive ObjectIdError where
  | wrongLength (text : String)
  /-- A byte of the text's UTF-8 form that is no hexadecimal digit. -/
  | badByte (byte : UInt8) (index : Nat) (text : String)
deriving DecidableEq, Repr

def ObjectIdError.message : ObjectIdError → String
  | wrongLength text =>
    "provided hex string representation must be exactly 12 bytes, instead got: \"" ++ text
      ++ "\", length " ++ toString text.utf8ByteSize
  | badByte byte index text =>
    "invalid character '" ++ String.ofList [Char.ofNat byte.toNat] ++ "' was found at index "
      ++ toString index ++ " in the provided hex string: \"" ++ text ++ "\""

namespace ObjectId

def text (id : ObjectId) : String :=
  String.ofList (id.nibbles.map fun (n : Fin 16) => Nat.digitChar n.val)

def hexDigit? (byte : UInt8) : Option (Fin 16) :=
  let n := byte.toNat
  if 48 ≤ n ∧ n ≤ 57 then some (Fin.ofNat 16 (n - 48))
  else if 65 ≤ n ∧ n ≤ 70 then some (Fin.ofNat 16 (n - 55))
  else if 97 ≤ n ∧ n ≤ 102 then some (Fin.ofNat 16 (n - 87))
  else none

/-- The digits of the bytes, the first of which stands at `index`. -/
def readDigits (text : String) : Nat → List UInt8 → Except ObjectIdError (List (Fin 16))
  | _, [] => .ok []
  | index, byte :: bytes =>
    match hexDigit? byte with
    | none => .error (.badByte byte index text)
    | some digit => (readDigits text (index + 1) bytes).map (digit :: ·)

/-- Twenty-four hexadecimal digits in either letter case. An odd number of bytes is refused
first, then a byte that is no digit, then any other length. -/
def read (text : String) : Except ObjectIdError ObjectId :=
  let bytes := text.toUTF8.toList
  if bytes.length % 2 = 1 then .error (.wrongLength text)
  else do
    let digits ← readDigits text 0 bytes
    if digits.length = 24 then .ok ⟨digits⟩ else .error (.wrongLength text)

end ObjectId

end DocQuery
