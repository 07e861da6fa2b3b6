import ZipMount.Text.Printable
import ZipMount.Text.Utf8

namespace ZipMount.Text

/-- The digits of a number in hexadecimal, small letters. -/
def hexDigits (n : Nat) : String := String.ofList (Nat.toDigits 16 n)

def hexByte (b : UInt8) : String :=
  String.ofList [(Nat.digitChar (b.toNat / 16)).toUpper, (Nat.digitChar (b.toNat % 16)).toUpper]

def quotedChar (c : Char) : String :=
  match c.toNat with
  | 0x00 => "\\0"
  | 0x09 => "\\t"
  | 0x0D => "\\r"
  | 0x0A => "\\n"
  | 0x22 => "\\\""
  | 0x27 => "\\'"
  | 0x5C => "\\\\"
  | n => if isPrintable c then c.toString else "\\u\x7b" ++ hexDigits n ++ "\x7d"

def quotedChunk : Chunk → String
  | .char c => quotedChar c
  | .broken bs => String.join (bs.map fun b => "\\x" ++ hexByte b)

def quoted (bs : List UInt8) : String :=
  "\"" ++ String.join ((chunks bs).map quotedChunk) ++ "\""

end ZipMount.Text
