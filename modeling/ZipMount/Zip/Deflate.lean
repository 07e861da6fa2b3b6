import ZipMount.Zip.DeflateCode
import ZipMount.Zip.Layout

namespace ZipMount.Zip

/-- A byte, or a reference to bytes a distance back. -/
inductive Token where
  | literal (b : UInt8)
  | back (length distance : Nat)
deriving DecidableEq, Repr

/-- How far the bytes at two places agree, up to a limit. -/
def agreement (data : ByteArray) (i j : Nat) : Nat → Nat
  | 0 => 0
  | n + 1 =>
    if j < data.size && byteAt data i == byteAt data j then agreement data (i + 1) (j + 1) n + 1
    else 0

/-- The place in a table for the three bytes at a position. -/
def slot (data : ByteArray) (i : Nat) : Nat :=
  (byteAt data i * 2531 + byteAt data (i + 1) * 89 + byteAt data (i + 2)) % 4096

/-- The tokens from a position on. The table holds, for some bytes, one more than the place where
they last stood. -/
def tokens (data : ByteArray) : Nat → Nat → Array Nat → List Token
  | 0, _, _ => []
  | n + 1, i, table =>
    if data.size ≤ i then []
    else if data.size < i + 3 then
      .literal (byteOf data i) :: tokens data n (i + 1) table
    else
      let s := slot data i
      let seen := table.getD s 0
      let table := table.setIfInBounds s (i + 1)
      let length := if seen = 0 ∨ 32768 < i + 1 - seen then 0 else agreement data (seen - 1) i 258
      if length < 3 then .literal (byteOf data i) :: tokens data n (i + 1) table
      else .back length (i + 1 - seen) :: tokens data n (i + length) table

/-- Bytes written so far, and the bits of the byte begun. -/
structure BitSink where
  out : ByteArray
  begun : Nat
  count : Nat

namespace BitSink

def bit (s : BitSink) (b : Nat) : BitSink :=
  let begun := s.begun + b * Nat.pow 2 s.count
  if s.count = 7 then ⟨s.out.push (UInt8.ofNat begun), 0, 0⟩ else ⟨s.out, begun, s.count + 1⟩

/-- Writes the lowest bits of a number, lowest first. -/
def number (s : BitSink) (v : Nat) : Nat → BitSink
  | 0 => s
  | n + 1 => (s.bit (v % 2)).number (v / 2) n

def code (s : BitSink) (v : Nat) : Nat → BitSink
  | 0 => s
  | n + 1 => (s.bit (v / Nat.pow 2 n % 2)).code v n

def finish (s : BitSink) : ByteArray :=
  if s.count = 0 then s.out else s.out.push (UInt8.ofNat s.begun)

/-- Writes a literal or length symbol by the code that is given beforehand. -/
def symbol (s : BitSink) (v : Nat) : BitSink :=
  if v < 144 then s.code (48 + v) 8
  else if v < 256 then s.code (400 + (v - 144)) 9
  else if v < 280 then s.code (v - 256) 7
  else s.code (192 + (v - 280)) 8

end BitSink

/-- The symbol of a value, by the least values of all symbols: the last that is not above it. -/
def symbolOf (base : Array Nat) (v : Nat) : Nat := (base.toList.takeWhile (· ≤ v)).length - 1

/-- Writes a token. -/
def BitSink.token (s : BitSink) : Token → BitSink
  | .literal b => s.symbol b.toNat
  | .back length distance =>
    let l := symbolOf lengthBase length
    let d := symbolOf distanceBase distance
    let s := (s.symbol (257 + l)).number (length - lengthBase.getD l 0) (lengthBits.getD l 0)
    (s.code d 5).number (distance - distanceBase.getD d 0) (distanceBits.getD d 0)

def deflate (data : ByteArray) : ByteArray :=
  let start : BitSink := (⟨ByteArray.empty, 0, 0⟩ : BitSink).number 3 3
  let all := (tokens data (data.size + 1) 0 (Array.replicate 4096 0)).foldl BitSink.token start
  (all.symbol 256).finish

end ZipMount.Zip
