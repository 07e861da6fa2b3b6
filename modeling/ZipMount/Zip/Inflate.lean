import ZipMount.Error
import ZipMount.Zip.DeflateCode
import ZipMount.Zip.Layout

namespace ZipMount.Zip

/-- Bits of packed data, lowest first, from a position on. -/
structure Bits where
  data : ByteArray
  position : Nat

namespace Bits

def left (b : Bits) : Nat := 8 * b.data.size - b.position

def next (b : Bits) : Except IoFault (Nat × Bits) :=
  if b.position < 8 * b.data.size then
    let byte := byteAt b.data (b.position / 8)
    .ok (byte / Nat.pow 2 (b.position % 8) % 2, { b with position := b.position + 1 })
  else .error .incompleteDeflate

/-- The number in the next bits, lowest first. -/
def take : Nat → Bits → Except IoFault (Nat × Bits)
  | 0, b => .ok (0, b)
  | n + 1, b => do
    let (low, b) ← b.next
    let (high, b) ← take n b
    pure (low + 2 * high, b)

/-- The next symbol of a code. `first` is the first code of a length and `index` the place of its
symbol. -/
def symbolFrom (c : PrefixCode) : Nat → Nat → Nat → Nat → Nat → Bits → Except IoFault (Nat × Bits)
  | 0, _, _, _, _, _ => .error .corruptDeflate
  | n + 1, length, code, first, index, b => do
    let (bit, b) ← b.next
    let code := code + bit
    let count := c.counts.getD length 0
    if code < first + count then
      pure (c.symbols.getD (index + (code - first)) 0, b)
    else symbolFrom c n (length + 1) (2 * code) (2 * (first + count)) (index + count) b

def symbol (c : PrefixCode) (b : Bits) : Except IoFault (Nat × Bits) := symbolFrom c 15 1 0 0 0 b

def toByte (b : Bits) : Bits := { b with position := (b.position + 7) / 8 * 8 }

end Bits

/-- Appends bytes from a distance back, one after the other. Zeros are before the first byte. -/
def copyBack (distance : Nat) : Nat → ByteArray → ByteArray
  | 0, out => out
  | n + 1, out =>
    let b := if distance ≤ out.size then byteOf out (out.size - distance) else 0
    copyBack distance n (out.push b)

/-- The contents of a block of symbols. -/
def symbols (literals distances : PrefixCode) :
    Nat → Bits → ByteArray → Except IoFault (Bits × ByteArray)
  | 0, _, _ => .error .incompleteDeflate
  | n + 1, b, out => do
    let (s, b) ← b.symbol literals
    if s < 256 then symbols literals distances n b (out.push (UInt8.ofNat s))
    else if s = 256 then pure (b, out)
    else if 285 < s then throw .corruptDeflate
    else do
      let (more, b) ← b.take (lengthBits.getD (s - 257) 0)
      let length := lengthBase.getD (s - 257) 0 + more
      let (d, b) ← b.symbol distances
      if 29 < d then throw .corruptDeflate
      else do
        let (more, b) ← b.take (distanceBits.getD d 0)
        let distance := distanceBase.getD d 0 + more
        symbols literals distances n b (copyBack distance length out)

/-- A block of bytes as they are, with their number twice, once inverted. -/
def rawBlock (b : Bits) (out : ByteArray) : Except IoFault (Bits × ByteArray) := do
  let (length, b) ← b.toByte.take 16
  let (inverted, b) ← b.take 16
  if length + inverted ≠ 65535 then throw .corruptDeflate
  else
    let start := b.position / 8
    if b.data.size < start + length then throw .incompleteDeflate
    else pure ({ b with position := b.position + 8 * length },
      out ++ b.data.extract start (start + length))

/-- Code lengths, written with symbols for repeats, until there are `total`. -/
def codeLengths (c : PrefixCode) (total : Nat) :
    Nat → List Nat → Bits → Except IoFault (List Nat × Bits)
  | 0, _, _ => .error .corruptDeflate
  | n + 1, reversed, b =>
    if total = reversed.length then pure (reversed.reverse, b)
    else if total < reversed.length then throw .corruptDeflate
    else do
      let (s, b) ← b.symbol c
      if s < 16 then codeLengths c total n (s :: reversed) b
      else if s = 16 then
        match reversed with
        | [] => throw .corruptDeflate
        | last :: _ => do
          let (more, b) ← b.take 2
          codeLengths c total n (List.replicate (3 + more) last ++ reversed) b
      else if s = 17 then do
        let (more, b) ← b.take 3
        codeLengths c total n (List.replicate (3 + more) 0 ++ reversed) b
      else do
        let (more, b) ← b.take 7
        codeLengths c total n (List.replicate (11 + more) 0 ++ reversed) b

def threeBitNumbers : Nat → Bits → Except IoFault (List Nat × Bits)
  | 0, b => pure ([], b)
  | n + 1, b => do
    let (v, b) ← b.take 3
    let (vs, b) ← threeBitNumbers n b
    pure (v :: vs, b)

def usableCode (lengths : List Nat) : Except IoFault PrefixCode :=
  let c := PrefixCode.ofLengths lengths
  if c.isUsable then .ok c else .error .corruptDeflate

def ownCodesBlock (b : Bits) (out : ByteArray) : Except IoFault (Bits × ByteArray) := do
  let (n, b) ← b.take 5
  let literalCount := n + 257
  let (n, b) ← b.take 5
  let distanceCount := n + 1
  let (n, b) ← b.take 4
  if 286 < literalCount || 30 < distanceCount then throw .corruptDeflate
  else do
    let (given, b) ← threeBitNumbers (n + 4) b
    let lengths := (List.range 19).map fun s => ((codeLengthOrder.zip given).lookup s).getD 0
    let c ← usableCode lengths
    let total := literalCount + distanceCount
    let (all, b) ← codeLengths c total (total + 1) [] b
    let distances ← usableCode (all.drop literalCount)
    let literals ← usableCode (all.take literalCount)
    symbols literals distances (b.left + 1) b out

def blocks : Nat → Bits → ByteArray → Except IoFault ByteArray
  | 0, _, _ => .error .incompleteDeflate
  | n + 1, b, out => do
    let (last, b) ← b.next
    let (kind, b) ← b.take 2
    let (b, out) ←
      if kind = 0 then rawBlock b out
      else if kind = 1 then
        symbols (PrefixCode.ofLengths fixedLengths) (PrefixCode.ofLengths fixedDistances)
          (b.left + 1) b out
      else if kind = 2 then ownCodesBlock b out
      else throw .corruptDeflate
    if last = 1 then pure out else blocks n b out

def inflate (data : ByteArray) : Except IoFault ByteArray :=
  blocks (8 * data.size + 1) ⟨data, 0⟩ ByteArray.empty

end ZipMount.Zip
