namespace ZipMount.Text

/-- The capitals of a letter that has ASCII capitals; any other character stands for itself. -/
def capitals (c : Char) : List Char :=
  if c.isLower then [c.toUpper]
  else match c.toNat with
    | 0x00DF => ['S', 'S']
    | 0x0131 => ['I']
    | 0x017F => ['S']
    | 0xFB00 => ['F', 'F']
    | 0xFB01 => ['F', 'I']
    | 0xFB02 => ['F', 'L']
    | 0xFB03 => ['F', 'F', 'I']
    | 0xFB04 => ['F', 'F', 'L']
    | 0xFB05 => ['S', 'T']
    | 0xFB06 => ['S', 'T']
    | _ => [c]

/-- The small letters of a capital that has ASCII ones; any other character stands for itself. -/
def smalls (c : Char) : List Char :=
  if c.isUpper then [c.toLower]
  else match c.toNat with
    | 0x0130 => ['i', Char.ofNat 0x0307]
    | 0x212A => ['k']
    | _ => [c]

/-- Asked for only where the word sought is one of ASCII letters, so that letters without ASCII
capitals may stand for themselves. -/
def inCapitals (s : String) : String := String.ofList (s.toList.flatMap capitals)

def inSmalls (s : String) : String := String.ofList (s.toList.flatMap smalls)

end ZipMount.Text
