/-! Texts quoted inside a message. -/

namespace DocQuery.Text

/-- The escape of a character between double quotes; control characters without a short escape are
written by their code point. -/
def messageEscape (c : Char) : List Char :=
  if c = '"' then ['\\', '"']
  else if c = '\\' then ['\\', '\\']
  else if c = '\n' then ['\\', 'n']
  else if c = '\r' then ['\\', 'r']
  else if c = '\t' then ['\\', 't']
  else if c = '\x00' then ['\\', '0']
  else if c.toNat < 32 ∨ c.toNat = 127 then
    "\\u\x7b".toList ++ Nat.toDigits 16 c.toNat ++ ['\x7d']
  else [c]

def messageQuoted (text : String) : String :=
  String.ofList ('"' :: text.toList.flatMap messageEscape ++ ['"'])

end DocQuery.Text
