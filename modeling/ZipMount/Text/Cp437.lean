namespace ZipMount.Text

/-- The upper half of code page 437, from 80 to FF. -/
def cp437Upper : Array Char :=
  ("ÇüéâäàåçêëèïîìÄÅÉæÆôöòûùÿÖÜ¢£¥₧ƒ" ++
   "áíóúñÑªº¿⌐¬½¼¡«»░▒▓│┤╡╢╖╕╣║╗╝╜╛┐" ++
   "└┴┬├─┼╞╟╚╔╩╦╠═╬╧╨╤╥╙╘╒╓╫╪┘┌█▄▌▐▀" ++
   "αßΓπΣσµτΦΘΩδ∞φε∩≡±≥≤⌠⌡÷≈°∙·√ⁿ²■\u00a0").toList.toArray

/-- The lower half is ASCII, control characters included. -/
def cp437Char (b : UInt8) : Char :=
  if b < 0x80 then Char.ofNat b.toNat else cp437Upper.getD (b.toNat - 128) ' '

/-- Bytes of code page 437 as text. -/
def cp437 (bs : List UInt8) : String := String.ofList (bs.map cp437Char)

end ZipMount.Text
