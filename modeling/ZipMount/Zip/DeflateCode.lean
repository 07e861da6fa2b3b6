namespace ZipMount.Zip

/-- The shortest length of each length symbol, from 257 on. -/
def lengthBase : Array Nat :=
  #[3, 4, 5, 6, 7, 8, 9, 10, 11, 13, 15, 17, 19, 23, 27, 31, 35, 43, 51, 59, 67, 83, 99, 115, 131,
    163, 195, 227, 258]

def lengthBits : Array Nat :=
  #[0, 0, 0, 0, 0, 0, 0, 0, 1, 1, 1, 1, 2, 2, 2, 2, 3, 3, 3, 3, 4, 4, 4, 4, 5, 5, 5, 5, 0]

/-- The shortest distance of each distance symbol. -/
def distanceBase : Array Nat :=
  #[1, 2, 3, 4, 5, 7, 9, 13, 17, 25, 33, 49, 65, 97, 129, 193, 257, 385, 513, 769, 1025, 1537, 2049,
    3073, 4097, 6145, 8193, 12289, 16385, 24577]

/-- How many more bits each distance symbol takes. -/
def distanceBits : Array Nat :=
  #[0, 0, 0, 0, 1, 1, 2, 2, 3, 3, 4, 4, 5, 5, 6, 6, 7, 7, 8, 8, 9, 9, 10, 10, 11, 11, 12, 12,
    13, 13]

/-- The order in which the lengths of the code for code lengths are given. -/
def codeLengthOrder : List Nat := [16, 17, 18, 0, 8, 7, 9, 6, 10, 5, 11, 4, 12, 3, 13, 2, 14, 1, 15]

/-- The code lengths of literals and lengths that are given beforehand. -/
def fixedLengths : List Nat :=
  List.replicate 144 8 ++ List.replicate 112 9 ++ List.replicate 24 7 ++ List.replicate 8 8

/-- The code lengths of distances that are given beforehand. -/
def fixedDistances : List Nat := List.replicate 32 5

/-- A canonical code: how many symbols have each length, and the symbols in the order of their
codes. -/
structure PrefixCode where
  counts : Array Nat
  symbols : Array Nat

namespace PrefixCode

/-- The code with these lengths; zero means that a symbol has none. -/
def ofLengths (lengths : List Nat) : PrefixCode :=
  let pairs := lengths.zipIdx
  let ofLength (n : Nat) := (pairs.filter fun p => p.1 = n).map (·.2)
  let groups := (List.range 16).map fun n => if n = 0 then [] else ofLength n
  ⟨(groups.map List.length).toArray, groups.flatten.toArray⟩

/-- How much of the code space is taken, where 2¹⁵ is all of it. -/
def space (c : PrefixCode) : Nat :=
  c.counts.toList.zipIdx.foldl
    (fun taken p => if p.2 = 0 then taken else taken + p.1 * Nat.pow 2 (15 - p.2)) 0

/-- A code fills its space exactly, unless it has at most one symbol. -/
def isUsable (c : PrefixCode) : Bool := c.symbols.size ≤ 1 || c.space == Nat.pow 2 15

end PrefixCode

end ZipMount.Zip
