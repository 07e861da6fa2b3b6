namespace ZipMount.Zip

/-- Two bytes. -/
def word (n : Nat) : List UInt8 := [UInt8.ofNat n, UInt8.ofNat (n / 256)]

/-- Four bytes. -/
def long (n : Nat) : List UInt8 := word n ++ word (n / 65536)

/-- The byte at a place; zero behind the end. -/
def byteOf (b : ByteArray) (i : Nat) : UInt8 := if h : i < b.size then b.get i h else 0

def byteAt (b : ByteArray) (i : Nat) : Nat := (byteOf b i).toNat

def wordAt (b : ByteArray) (i : Nat) : Nat := byteAt b i + 256 * byteAt b (i + 1)

def longAt (b : ByteArray) (i : Nat) : Nat := wordAt b i + 65536 * wordAt b (i + 2)

/-- The bytes between two places, as far as there are any. -/
def between (b : ByteArray) (i j : Nat) : List UInt8 := (b.extract i j).data.toList

def localMark : Nat := 0x04034b50

def directoryMark : Nat := 0x02014b50

def endMark : Nat := 0x06054b50

def hasMark (b : ByteArray) (mark i : Nat) : Bool := i + 4 ≤ b.size && longAt b i == mark

/-- The identifier of the extended timestamp among the extra fields. -/
def stampId : Nat := 0x5455

def utf8Flag : Nat := 0x0800

theorem byteAt_lt (b : ByteArray) (i : Nat) : byteAt b i < 256 := (byteOf b i).toNat_lt

theorem longAt_lt (b : ByteArray) (i : Nat) : longAt b i < 4294967296 := by
  have h₀ := byteAt_lt b i
  have h₁ := byteAt_lt b (i + 1)
  have h₂ := byteAt_lt b (i + 2)
  have h₃ := byteAt_lt b (i + 2 + 1)
  unfold longAt wordAt
  omega

end ZipMount.Zip
