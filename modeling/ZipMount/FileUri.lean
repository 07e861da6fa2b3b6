import ZipMount.Pathname

namespace ZipMount.FileUri

/-- Bytes that stand for themselves: letters, digits, slashes and some marks. -/
def isPlain (b : UInt8) : Bool :=
  (48 ≤ b && b ≤ 57) || (65 ≤ b && b ≤ 90) || (97 ≤ b && b ≤ 122)
    || [47, 45, 46, 95, 126, 33, 36, 38, 39, 40, 41, 42, 43, 44, 59, 61, 58, 64].contains b

def digit (n : Nat) : Char := if n < 10 then Char.ofNat (48 + n) else Char.ofNat (55 + n)

def escaped (b : UInt8) : List Char :=
  if isPlain b then [Char.ofNat b.toNat]
  else ['%', digit (b.toNat / 16), digit (b.toNat % 16)]

def ofAbsolute (p : Pathname) : String :=
  "file://" ++ String.ofList (p.bytes.flatMap escaped)

/-- The URI of a path, a relative one being taken from a working directory. -/
def ofPathname (cwd p : Pathname) : String :=
  ofAbsolute (if p.isAbsolute then p else cwd.join p)

def digitValue? (b : UInt8) : Option UInt8 :=
  if 48 ≤ b && b ≤ 57 then some (b - 48)
  else if 65 ≤ b && b ≤ 70 then some (b - 55)
  else if 97 ≤ b && b ≤ 102 then some (b - 87)
  else none

/-- The value of the two bytes after a percent sign: a number in hexadecimal, which may be a single
digit after a plus sign. -/
def numberValue? (h l : UInt8) : Option UInt8 :=
  if h = 43 then digitValue? l
  else do
    let h ← digitValue? h
    let l ← digitValue? l
    pure (16 * h + l)

/-- The bytes a part of a URI stands for, if every percent sign has its number. -/
def unescape? : List UInt8 → Option (List UInt8)
  | [] => some []
  | b :: rest =>
    if b = 37 then
      match rest with
      | h :: l :: rest' => do
        let v ← numberValue? h l
        let vs ← unescape? rest'
        pure (v :: vs)
      | _ => none
    else (unescape? rest).map (b :: ·)

/-- The part of a URI after its scheme and the mark of an authority. -/
def pathPart? (uri : String) : Option (List UInt8) :=
  let mark := Text.bytes "file://"
  let bs := Text.bytes uri
  if mark.isPrefixOf bs then some (bs.drop mark.length) else none

/-- The path of a well-formed URI with an absolute path. -/
def toPathname? (uri : String) : Option Pathname := do
  let part ← pathPart? uri
  if part.head? = some 47 then (unescape? part).map Pathname.mk else none

end ZipMount.FileUri
