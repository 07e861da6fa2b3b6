namespace ZipMount.Text

def bytes (s : String) : List UInt8 := s.toUTF8.data.toList

/-- The text these bytes encode, if they are valid UTF-8. -/
def ofBytes? (bs : List UInt8) : Option String := String.fromUTF8? ⟨bs.toArray⟩

theorem ofBytes?_bytes (s : String) : ofBytes? (bytes s) = some s := by
  have h : (⟨(bytes s).toArray⟩ : ByteArray) = s.toByteArray := by simp [bytes]
  rw [ofBytes?, h, String.fromUTF8?, dif_pos s.isValidUTF8]
  rfl

theorem bytes_of_ofBytes? {bs : List UInt8} {s : String} (h : ofBytes? bs = some s) :
    bytes s = bs := by
  unfold ofBytes? String.fromUTF8? at h
  split at h
  · cases h
    change (ByteArray.mk bs.toArray).data.toList = bs
    simp
  · cases h

theorem bytes_inj {s t : String} (h : bytes s = bytes t) : s = t := by
  have := congrArg ofBytes? h
  simpa [ofBytes?_bytes] using this

/-- Stands for bytes that are no character. -/
def replacement : Char := Char.ofNat 0xFFFD

/-- What the first byte of a longer sequence says: how many bytes follow, and the range of the next.
-/
def leadByte (b : UInt8) : Option (Nat × UInt8 × UInt8) :=
  if 0xC2 ≤ b && b ≤ 0xDF then some (1, 0x80, 0xBF)
  else if b = 0xE0 then some (2, 0xA0, 0xBF)
  else if b = 0xED then some (2, 0x80, 0x9F)
  else if 0xE1 ≤ b && b ≤ 0xEF then some (2, 0x80, 0xBF)
  else if b = 0xF0 then some (3, 0x90, 0xBF)
  else if 0xF1 ≤ b && b ≤ 0xF3 then some (3, 0x80, 0xBF)
  else if b = 0xF4 then some (3, 0x80, 0x8F)
  else none

def isContinuation (b : UInt8) : Bool := 0x80 ≤ b && b ≤ 0xBF

/-- The payload bits of a continuation byte. -/
def payload (b : UInt8) : Nat := b.toNat % 64

/-- The character that `b` begins and the number of bytes of `rest` it takes, or the number of bytes
of the broken start that go with `b`. -/
def sequenceAfter (b : UInt8) (rest : List UInt8) : Option Char × Nat :=
  match leadByte b with
  | none => (none, 0)
  | some (more, low, high) =>
    match rest with
    | [] => (none, 0)
    | c₁ :: r₁ =>
      if !(low ≤ c₁ && c₁ ≤ high) then (none, 0)
      else if more = 1 then (some (Char.ofNat (b.toNat % 32 * 64 + payload c₁)), 1)
      else match r₁ with
        | [] => (none, 1)
        | c₂ :: r₂ =>
          if !isContinuation c₂ then (none, 1)
          else if more = 2 then
            (some (Char.ofNat ((b.toNat % 16 * 64 + payload c₁) * 64 + payload c₂)), 2)
          else match r₂ with
            | [] => (none, 2)
            | c₃ :: _ =>
              if !isContinuation c₃ then (none, 2)
              else (some (Char.ofNat
                (((b.toNat % 8 * 64 + payload c₁) * 64 + payload c₂) * 64 + payload c₃)), 3)

/-- A run of bytes read as text: a character, or bytes that are none. -/
inductive Chunk where
  | char (c : Char)
  | broken (bytes : List UInt8)
deriving DecidableEq, Repr

/-- The bytes cut into characters and broken starts. -/
def chunks : List UInt8 → List Chunk
  | [] => []
  | b :: rest =>
    if b < 0x80 then .char (Char.ofNat b.toNat) :: chunks rest
    else match sequenceAfter b rest with
      | (some c, n) => .char c :: chunks (rest.drop n)
      | (none, n) => .broken (b :: rest.take n) :: chunks (rest.drop n)
termination_by bs => bs.length
decreasing_by all_goals (simp only [List.length_cons, List.length_drop]; omega)

def Chunk.shown : Chunk → Char
  | .char c => c
  | .broken _ => replacement

def lossy (bs : List UInt8) : String :=
  (ofBytes? bs).getD (String.ofList ((chunks bs).map Chunk.shown))

theorem lossy_bytes (s : String) : lossy (bytes s) = s := by
  simp [lossy, ofBytes?_bytes]

end ZipMount.Text
