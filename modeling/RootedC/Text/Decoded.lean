/-! Length of a string literal's text once its escapes are decoded. -/
namespace RootedC.Text

/-- The bytes of a text in UTF-8. -/
def utf8 (cs : List Char) : List UInt8 := cs.flatMap String.utf8EncodeChar

/-- A backslash and the byte behind it count for one, every other byte for itself. -/
def countDecoded : List UInt8 → Nat
  | [] => 0
  | [_] => 1
  | b :: c :: rest =>
    if b = 0x5c then countDecoded rest + 1 else countDecoded (c :: rest) + 1

def decodedLength (raw : String) : Nat := countDecoded (utf8 raw.toList)

end RootedC.Text
