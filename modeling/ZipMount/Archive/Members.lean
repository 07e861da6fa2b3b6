import ZipMount.Archive.Image

namespace ZipMount

open MemberKey (beforeLastSlash)

/-- The members of a mount as they are kept: the order of their keys, and what is under each key.
Keys are texts. The root is under the empty text, which the order does not list. -/
structure Members where
  order : List String
  /-- Read by key only; the order of its own keys means nothing. -/
  entries : Table String Member
  dirty : Bool

namespace Members

/-- What looks at members or changes them, and may be refused. What it did till then remains. -/
abbrev Work (α : Type) := ExceptT Refusal (StateM Members) α

def empty (now : Instant) : Members := ⟨[], [("", .directory now)], false⟩

def keyOf (path : String) : String := (MemberKey.ofText path).text

/-- A key that is new goes to the end of the order; a member that is replaced keeps its place. -/
def insert (ms : Members) (key : String) (m : Member) : Members where
  order := if (ms.entries.get? key).isNone then ms.order ++ [key] else ms.order
  entries := ms.entries.put key m
  dirty := true

/-- Changes the member under a key where it stands. -/
def set (ms : Members) (key : String) (m : Member) : Members :=
  { ms with entries := ms.entries.put key m, dirty := true }

def find (key : String) : Work Member := do
  match (← get).entries.get? key with
  | some m => pure m
  | none => throw .missing

def checkParent (key : String) : Work Unit := do
  if !(← find (beforeLastSlash key)).isDirectory then throw .notADirectory

def setTimes (key : String) (change : TimeChange) : Work Unit := do
  let m ← find key
  modify fun ms => ms.set key { m with times := m.times.changed change }

def makeDirectory (now : Instant) (key : String) : Work Unit := do
  if ((← get).entries.get? key).isSome then throw .present
  checkParent key
  modify fun ms => ms.insert key (.directory now)

/-- A directory is in the way whatever the mode; a file only where a new one is asked for. -/
def write (now : Instant) (key : String) (data : ByteArray) (mode : WriteMode) : Work Unit := do
  match (← get).entries.get? key with
  | some m =>
    if m.isDirectory then throw .isADirectory
    if mode = .createNew then throw .present
    modify fun ms =>
      ms.set key ⟨.file data, { m.times with modified := now, accessed := now }⟩
  | none =>
    checkParent key
    modify fun ms => ms.insert key (.file data now)

/-- Whether a text starts with a key and a slash. -/
def startsIn (key text : String) : Bool := (key ++ "/").toList.isPrefixOf text.toList

def delete (key : String) : Work Unit := do
  if key = "" then throw .root
  let _ ← find key
  if (← get).order.any (startsIn key) then throw .notEmpty
  modify fun ms =>
    { order := ms.order.filter (· ≠ key), entries := ms.entries.erase key, dirty := true }

def read (key : String) : Work ByteArray := do
  match (← find key).content with
  | .file data => pure data
  | .directory => throw .isADirectory

def list (key : String) : Work (List String) := do
  if !(← find key).isDirectory then throw .notADirectory
  pure ((← get).order.filter fun other => beforeLastSlash other = key)

/-- The keys in each directory, in the order in which they are put to it. -/
def addBelow (children : Table String (List String)) (key : String) : Table String (List String) :=
  children.put (beforeLastSlash key) (((children.get? (beforeLastSlash key)).getD []) ++ [key])

/-- The keys in each directory; for a walk by name they are sorted as whole texts. -/
def children (ms : Members) (order : WalkOrder) : Table String (List String) :=
  (ms.order.foldl addBelow []).map fun (key, below) =>
    (key, order.arrange MemberKey.nameLe below)

/-- Takes keys off a stack, first on top, and puts what is in each on the stack in its place, until
the stack is empty; nothing if that takes more turns. -/
def drain (children : Table String (List String)) : Nat → List String → Option (List String)
  | _, [] => some []
  | 0, _ :: _ => none
  | turns + 1, key :: stack => do
    let rest ← drain children turns ((children.get? key).getD [] ++ stack)
    some (key :: rest)

def walk (key : String) (order : WalkOrder) : Work (Option (List String)) := do
  let _ ← find key
  let ms ← get
  pure (drain (ms.children order) (ms.order.length + 1) [key])

/-- Adds the directories above a key that are missing. -/
def ensureParents (ms : Members) (key : String) (time : Instant) : Members :=
  let parent := beforeLastSlash key
  if _ : parent = "" ∨ (ms.entries.get? parent).isSome then ms
  else (ms.ensureParents parent time).insert parent (.directory time)
termination_by key.length
decreasing_by next h => exact MemberKey.length_beforeLastSlash (not_or.mp h).1

/-- Adds an entry that was found in an archive file. One that names the root is passed over. -/
def addEntry (ms : Members) (found : Except ZipFault Zip.Entry) : Except Error Members := do
  let e ← found.mapError Error.zip
  let key := keyOf e.name
  if key = "" then pure ms
  else
    let m ← (Tree.entryMember e).mapError Error.io
    pure ((ms.ensureParents key m.times.modified).insert key m)

/-- The members of the entries found in an archive file. -/
def ofEntries (now : Instant) (found : List (Except ZipFault Zip.Entry)) :
    Except Error Members := do
  let ms ← found.foldlM addEntry (empty now)
  pure { ms with dirty := false }

end Members

end ZipMount
