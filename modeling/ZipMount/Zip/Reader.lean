import ZipMount.Text.Cp437
import ZipMount.Text.Utf8
import ZipMount.Zip.Crc32
import ZipMount.Zip.Entry
import ZipMount.Zip.Inflate
import ZipMount.Zip.Layout

namespace ZipMount.Zip

/-- A header of the directory. -/
structure Record where
  madeBy : Nat
  flags : Nat
  method : Nat
  dos : DosTime
  crc : UInt32
  packedSize : Nat
  /-- How many bytes the contents are said to have. -/
  size : Nat
  name : String
  stamp : Option Stamp
  attributes : Nat
  /-- The place of the local header. -/
  offset : Nat
deriving DecidableEq

namespace Record

/-- The permission bits and kind of the entry in the manner of Unix, if its maker gives them. -/
def unixMode (r : Record) : Option Nat :=
  if r.attributes = 0 then none
  else match r.madeBy / 256 with
    | 3 => some (r.attributes / 65536)
    | 0 =>
      let mode := if r.attributes / 16 % 2 = 1 then 0o040775 else 0o100664
      some (if r.attributes % 2 = 1 then mode &&& 0o555 else mode)
    | _ => none

end Record

/-- How many of the three times the flags announce. -/
def announced (flags : Nat) : Nat := flags % 2 + flags / 2 % 2 + flags / 4 % 2

/-- The time at the front of some bytes, if its flag is set, and what follows it. -/
def stampTime (isSet : Bool) (bs : List UInt8) : Option UInt32 × List UInt8 :=
  match isSet, bs with
  | true, a :: b :: c :: d :: rest =>
    (some (a.toUInt32 + b.toUInt32 * 0x100 + c.toUInt32 * 0x10000 + d.toUInt32 * 0x1000000), rest)
  | _, _ => (none, bs)

/-- Whether a timestamp with these flags may have this length: it has the times that are announced
and no more, or one time whatever is announced. -/
def fits (flags length : Nat) : Bool :=
  flags < 8 && (length == 5 || length == 1 + 4 * announced flags)

/-- The extended timestamp with these flags in the bytes after them. Five bytes in all hold a
modification time whatever the flags say. -/
def readStamp (flags : UInt8) (times : List UInt8) : Stamp :=
  if times.length = 4 then ⟨flags, (stampTime true times).1, none, none⟩
  else
    let (modified, rest) := stampTime (flags.toNat % 2 = 1) times
    let (accessed, rest) := stampTime (flags.toNat / 2 % 2 = 1) rest
    let (created, _) := stampTime (flags.toNat / 4 % 2 = 1) rest
    ⟨flags, modified, accessed, created⟩

/-- The extended timestamp among extra fields, the first if there are several. Fields that break off
end the search; a timestamp of a wrong shape refuses the whole directory. -/
def scanExtra : Nat → List UInt8 → Option Stamp → Option (Option Stamp)
  | 0, _, found => some found
  | n + 1, bs, found =>
    match bs with
    | i :: j :: k :: l :: rest =>
      let length := k.toNat + 256 * l.toNat
      let stamp := i.toNat + 256 * j.toNat = stampId
      match rest with
      | [] => some found
      | flags :: times =>
        if stamp ∧ ¬ fits flags.toNat length then none
        else if rest.length < length then some found
        else if stamp then
          let s := readStamp flags (times.take (length - 1))
          scanExtra n (rest.drop length) (found.orElse fun _ => some s)
        else scanExtra n (rest.drop length) found
    | _ => some found

/-- The header of the directory at a place, and the place after it. Local headers are `shift` bytes
behind where the header says, and before the directory. Sizes and places are those of the header
itself: an extra field with longer ones is not read. -/
def readRecord? (b : ByteArray) (directory shift i : Nat) : Option (Record × Nat) := do
  guard (i + 46 ≤ b.size)
  guard (longAt b i = directoryMark)
  let nameLength := wordAt b (i + 28)
  let extraLength := wordAt b (i + 30)
  let commentLength := wordAt b (i + 32)
  let nameEnd := i + 46 + nameLength
  let next := nameEnd + extraLength + commentLength
  guard (next ≤ b.size)
  let flags := wordAt b (i + 8)
  let nameBytes := between b (i + 46) nameEnd
  let extra := between b nameEnd (nameEnd + extraLength)
  let stamp ← scanExtra (extra.length + 1) extra none
  let method := wordAt b (i + 10)
  guard (method ≠ 99)
  let offset := longAt b (i + 42) + shift
  guard (offset < directory)
  pure (⟨wordAt b (i + 4), flags, method,
    ⟨UInt16.ofNat (wordAt b (i + 14)), UInt16.ofNat (wordAt b (i + 12))⟩,
    UInt32.ofNat (longAt b (i + 16)), longAt b (i + 20), longAt b (i + 24),
    (if flags / utf8Flag % 2 = 1 then Text.lossy nameBytes else Text.cp437 nameBytes),
    stamp, longAt b (i + 38), offset⟩, next)

def readRecords? (b : ByteArray) (directory shift : Nat) : Nat → Nat → Option (List Record)
  | 0, _ => some []
  | n + 1, i => do
    let (r, next) ← readRecord? b directory shift i
    let rs ← readRecords? b directory shift n next
    pure (r :: rs)

/-- Puts a header in the place of an earlier one of the same name, or last. -/
def collapse : List Record → Record → List Record
  | [], r => [r]
  | q :: qs, r => if q.name = r.name then r :: qs else q :: collapse qs r

/-- The first place from `i` on, before `limit`, where a directory header starts; `n` places are
looked at. -/
def findDirectory? (b : ByteArray) (limit : Nat) : Nat → Nat → Option Nat
  | 0, _ => none
  | n + 1, i =>
    if limit < i + 4 then none
    else if hasMark b directoryMark i then some i
    else findDirectory? b limit n (i + 1)

/-- What following an end record comes to. -/
inductive Followed where
  /-- The directory it leads to. -/
  | directory (records : List Record)
  /-- A fault to remember if nothing better turns up; `strong` puts it before one remembered. -/
  | fault (f : ZipFault) (strong : Bool)
  /-- A directory that does not hold together: the search starts afresh. -/
  | broken

/-- Follows the end record at a place. -/
def follow (b : ByteArray) (i : Nat) : Followed :=
  if b.size < i + 22 then .fault .truncated false
  else if b.size < i + 22 + wordAt b (i + 20) then .fault .commentTooLong false
  else if wordAt b (i + 10) = 0 then .directory []
  else
    let start := longAt b (i + 16)
    if i ≤ start then .fault .directoryOffset true
    else match findDirectory? b i (i - start) start with
      | none => .fault .noDirectory true
      | some directory =>
        if wordAt b (i + 4) ≠ wordAt b (i + 6) then .broken
        else match readRecords? b directory (directory - start) (wordAt b (i + 8)) directory with
          | none => .broken
          | some rs => .directory (rs.foldl collapse [])

/-- Tries the places below one, from the last, for an end record. -/
def search (b : ByteArray) : Nat → Option ZipFault → Except ZipFault (List Record)
  | 0, remembered => .error (remembered.getD .noEndRecord)
  | i + 1, remembered =>
    if hasMark b endMark i then
      match follow b i with
      | .directory rs => .ok rs
      | .fault f strong => search b i (if strong then some f else remembered.orElse fun _ => some f)
      | .broken => search b i none
    else search b i remembered

def readDirectory (b : ByteArray) : Except ZipFault (List Record) := search b b.size none

/-- The contents packed between two places, as `method` packs them. -/
def unpack (method : Nat) (packed : ByteArray) : Except IoFault ByteArray :=
  if method = 8 then inflate packed else .ok packed

def checked (crc : UInt32) (r : Except IoFault ByteArray) : Except IoFault ByteArray := do
  let data ← r
  if crc32 data = crc then pure data else throw .checksum

def Record.open (b : ByteArray) (r : Record) : Except ZipFault Entry :=
  if r.flags % 2 = 1 then .error .passwordRequired
  else if ¬ hasMark b localMark r.offset then .error .localHeader
  else if r.method ≠ 0 ∧ r.method ≠ 8 then .error .compressionMethod
  else
    let start := r.offset + 30 + wordAt b (r.offset + 26) + wordAt b (r.offset + 28)
    .ok ⟨r.name, r.dos, r.stamp,
      checked r.crc (unpack r.method (b.extract start (start + r.packedSize)))⟩

/-- The entries of an archive file, in the order of its directory; each may prove unreadable. -/
def read (b : ByteArray) : Except ZipFault (List (Except ZipFault Entry)) :=
  (readDirectory b).map fun rs => rs.map (Record.open b)

theorem size_lt_of_readRecord? {b : ByteArray} {directory shift i next : Nat} {r : Record}
    (h : readRecord? b directory shift i = some (r, next)) : r.size < 4294967296 := by
  unfold readRecord? at h
  obtain ⟨-, -, h⟩ := Option.bind_eq_some_iff.mp h
  obtain ⟨-, -, h⟩ := Option.bind_eq_some_iff.mp h
  obtain ⟨-, -, h⟩ := Option.bind_eq_some_iff.mp h
  obtain ⟨stamp, -, h⟩ := Option.bind_eq_some_iff.mp h
  obtain ⟨-, -, h⟩ := Option.bind_eq_some_iff.mp h
  obtain ⟨-, -, h⟩ := Option.bind_eq_some_iff.mp h
  cases h
  exact longAt_lt b (i + 24)

theorem size_lt_of_readRecords? {b : ByteArray} {directory shift n i : Nat} {rs : List Record}
    (h : readRecords? b directory shift n i = some rs) : ∀ r ∈ rs, r.size < 4294967296 := by
  induction n generalizing i rs with
  | zero =>
    cases h
    exact fun r hr => absurd hr List.not_mem_nil
  | succ n ih =>
    obtain ⟨⟨r, next⟩, hr, h⟩ := Option.bind_eq_some_iff.mp h
    obtain ⟨qs, hqs, h⟩ := Option.bind_eq_some_iff.mp h
    cases h
    intro q hq
    rcases List.mem_cons.mp hq with rfl | hq
    · exact size_lt_of_readRecord? hr
    · exact ih hqs q hq

theorem mem_collapse {q r : Record} {rs : List Record} (h : q ∈ collapse rs r) : q ∈ rs ∨ q = r := by
  induction rs with
  | nil => exact Or.inr (List.mem_singleton.mp h)
  | cons p ps ih =>
    unfold collapse at h
    split at h
    · rcases List.mem_cons.mp h with rfl | h
      · exact Or.inr rfl
      · exact Or.inl (List.mem_cons_of_mem p h)
    · rcases List.mem_cons.mp h with rfl | h
      · exact Or.inl List.mem_cons_self
      · exact (ih h).imp_left (List.mem_cons_of_mem p)

theorem mem_foldl_collapse {q : Record} {rs qs : List Record} (h : q ∈ rs.foldl collapse qs) :
    q ∈ qs ∨ q ∈ rs := by
  induction rs generalizing qs with
  | nil => exact Or.inl h
  | cons r rs ih =>
    rcases ih h with h | h
    · rcases mem_collapse h with h | rfl
      · exact Or.inl h
      · exact Or.inr List.mem_cons_self
    · exact Or.inr (List.mem_cons_of_mem r h)

theorem size_lt_of_follow {b : ByteArray} {i : Nat} {rs : List Record}
    (h : follow b i = .directory rs) : ∀ r ∈ rs, r.size < 4294967296 := by
  simp only [follow] at h
  split at h
  · cases h
  split at h
  · cases h
  split at h
  · cases h
    exact fun r hr => absurd hr List.not_mem_nil
  split at h
  · cases h
  split at h
  · cases h
  split at h
  · cases h
  split at h
  · cases h
  · next qs hqs =>
    cases h
    intro r hr
    rcases mem_foldl_collapse hr with hr | hr
    · cases hr
    · exact size_lt_of_readRecords? hqs r hr

/-- No entry that is found in an archive file says of its contents that they are of a size for which
there could be no room: however an archive file was made, its entries can be opened without harm. -/
theorem size_lt_of_readDirectory {b : ByteArray} {rs : List Record} (h : readDirectory b = .ok rs) :
    ∀ r ∈ rs, r.size < 4294967296 := by
  have hsearch : ∀ (i : Nat) (remembered : Option ZipFault), search b i remembered = .ok rs →
      ∀ r ∈ rs, r.size < 4294967296 := by
    intro i
    induction i with
    | zero => exact fun remembered h => nomatch h
    | succ i ih =>
      intro remembered h
      unfold search at h
      split at h
      · split at h
        · next qs hqs =>
          cases h
          exact size_lt_of_follow hqs
        · exact ih _ h
        · exact ih _ h
      · exact ih _ h
  exact hsearch b.size none h

end ZipMount.Zip
