import ZipMount.Archive.Tree
import ZipMount.Failure
import ZipMount.Zip.Reader
import ZipMount.Zip.Writer

namespace ZipMount

/-- The longer and longer starts of a list, the empty one left out. -/
def starts {α : Type} : List α → List (List α)
  | [] => []
  | x :: xs => [x] :: (starts xs).map (x :: ·)

namespace Tree

def ofWord (w : UInt32) : Instant := .ofSeconds w.toNat

/-- The times of an entry. The stamp's are taken where it has them; else the packed date stands for
the modification, and the modification for the other two. -/
def entryTimes (e : Zip.Entry) : Times :=
  let stamped := fun (field : Zip.Stamp → Option UInt32) => (e.stamp.bind field).map ofWord
  let modified := (stamped Zip.Stamp.modified).getD (e.dos.toInstant?.getD .epoch)
  { created := (stamped Zip.Stamp.created).getD modified
    modified := modified
    accessed := (stamped Zip.Stamp.accessed).getD modified }

/-- The member an entry gives. The contents of a directory are not looked at. Room for those of a
file is made by the size in its header, which is never too large (`Zip.size_lt_of_readDirectory`). -/
def entryMember (e : Zip.Entry) : Except IoFault Member :=
  if e.isDirectory then .ok ⟨.directory, entryTimes e⟩
  else e.contents.map fun data => ⟨.file data, entryTimes e⟩

/-- Adds the directories above a key that are missing, outermost first. -/
def ensureParents (t : Tree) (k : MemberKey) (time : Instant) : Tree :=
  (starts k.parent).foldl
    (fun t p => if (t.find? p).isSome then t else t.insert p (.directory time)) t

/-- Adds an entry that was found in an archive file. One that names the root is passed over. -/
def addEntry (t : Tree) (found : Except ZipFault Zip.Entry) : Except Error Tree := do
  let e ← found.mapError Error.zip
  let k := MemberKey.ofText e.name
  if k = [] then pure t
  else
    let m ← (entryMember e).mapError Error.io
    pure ((t.ensureParents k m.times.modified).insert k m)

/-- The tree of the entries found in an archive file. -/
def ofEntries (now : Instant) (found : List (Except ZipFault Zip.Entry)) : Except Error Tree :=
  found.foldlM addEntry (empty now)

def decode (now : Instant) (b : ByteArray) : Except Error Tree := do
  ofEntries now (← (Zip.read b).mapError Error.zip)

/-- The word of a stamp for an instant: whole seconds, of which thirty-one bits are used. -/
def word? (t : Instant) : Option UInt32 :=
  if 0 ≤ t.seconds ∧ t.seconds < 2147483648 then some (UInt32.ofNat t.seconds.toNat) else none

/-- The stamp for some times, if all of them fit. -/
def stamp? (ts : Times) : Option Zip.Stamp := do
  let modified ← word? ts.modified
  let accessed ← word? ts.accessed
  let created ← word? ts.created
  pure (.full modified accessed created)

/-- What is written for a member. Its modification needs a date. -/
def draft (method : Compression) (k : MemberKey) (m : Member) : Except Failure Zip.Draft :=
  if m.times.modified.onCalendar then
    let (name, data) := match m.content with
      | .directory => (k.text ++ "/", ByteArray.empty)
      | .file data => (k.text, data)
    .ok ⟨name, m.isDirectory, method, .ofInstant m.times.modified, stamp? m.times, data⟩
  else .error (.offCalendar m.times.modified)

/-- What is written for the members, in their order. -/
def drafts (method : Compression) (t : Tree) : Except Failure (List Zip.Draft) :=
  t.members.mapM fun km => draft method km.1 km.2

/-- The bytes of an archive file that holds the members. -/
def encode (method : Compression) (t : Tree) : Except Failure ByteArray := do
  let ds ← t.drafts method
  (Zip.write ds).mapError fun f => .error (.zip f)

end Tree

end ZipMount
