import ZipMount.Attributes
import ZipMount.Contents
import ZipMount.Error
import ZipMount.MemberKey
import ZipMount.Table

namespace ZipMount

/-- What a member holds. -/
inductive Content where
  | directory
  | file (data : ByteArray)
deriving DecidableEq

/-- A member and its times. -/
structure Member where
  content : Content
  times : Times
deriving DecidableEq

namespace Member

/-- A directory, all of whose times are the same. -/
def directory (t : Instant) : Member := ⟨.directory, .all t⟩

def file (data : ByteArray) (t : Instant) : Member := ⟨.file data, .all t⟩

def isDirectory (m : Member) : Bool :=
  match m.content with
  | .directory => true
  | .file _ => false

def attributes (m : Member) : Attributes :=
  match m.content with
  | .directory => ⟨.directory, 0, m.times⟩
  | .file data => ⟨.file, data.size, m.times⟩

end Member

/-- Why an operation on members is refused. -/
inductive Refusal where
  | missing
  | present
  | notADirectory
  | isADirectory
  | notEmpty
  | root
deriving DecidableEq, Repr

/-- The error for a refusal of an operation on a path. -/
def Refusal.error (subject : String) : Refusal → Error
  | .missing => .notFound subject
  | .present => .alreadyExists subject
  | .notADirectory => .notADirectory subject
  | .isADirectory => .isADirectory subject
  | .notEmpty => .directoryNotEmpty subject
  | .root => .unsupported "delete_root" "jar"

/-- The times of the root, and the members in the order in which they came. `Members` keeps their
order and what is under their keys apart, and answers alike (`Members.Shows.run`). -/
structure Tree where
  root : Times
  members : Table MemberKey Member
deriving DecidableEq

namespace Tree

def empty (now : Instant) : Tree := ⟨.all now, []⟩

/-- The keys of the members in the order in which they came. -/
def order (t : Tree) : List MemberKey := t.members.keys

/-- The member under a key; the empty key is the root's. -/
def find? (t : Tree) (k : MemberKey) : Option Member :=
  if k = [] then some ⟨.directory, t.root⟩ else t.members.get? k

/-- The member under a key, which has to be there. -/
def find (t : Tree) (k : MemberKey) : Except Refusal Member :=
  match t.find? k with
  | some m => .ok m
  | none => .error .missing

/-- Puts a member under a key, in the place of one that was there. -/
def insert (t : Tree) (k : MemberKey) (m : Member) : Tree := { t with members := t.members.put k m }

/-- A new member needs a parent that is a directory. -/
def checkParent (t : Tree) (k : MemberKey) : Except Refusal Unit :=
  match t.find? k.parent with
  | some p => if p.isDirectory then .ok () else .error .notADirectory
  | none => .error .missing

def makeDirectory (t : Tree) (now : Instant) (k : MemberKey) : Except Refusal Tree :=
  match t.find? k with
  | some _ => .error .present
  | none => do
    t.checkParent k
    pure (t.insert k (.directory now))

/-- Adds a file, or gives a file that is there new contents in its place. -/
def writeFile (t : Tree) (now : Instant) (k : MemberKey) (data : ByteArray) (mode : WriteMode) :
    Except Refusal Tree :=
  match t.find? k with
  | some ⟨.directory, _⟩ => .error .isADirectory
  | some ⟨.file _, times⟩ =>
    match mode with
    | .createNew => .error .present
    | .replace => .ok (t.insert k ⟨.file data, { times with modified := now, accessed := now }⟩)
  | none => do
    t.checkParent k
    pure (t.insert k (.file data now))

def hasBeneath (t : Tree) (k : MemberKey) : Bool := t.order.any fun j => k.isPrefixOf j && j != k

/-- Takes out a member that has nothing beneath it. -/
def remove (t : Tree) (k : MemberKey) : Except Refusal Tree :=
  if k = [] then .error .root
  else do
    let _ ← t.find k
    if t.hasBeneath k then throw .notEmpty
    pure { t with members := t.members.erase k }

/-- Changes the times of a member, or of the root. -/
def retime (t : Tree) (k : MemberKey) (change : TimeChange) : Except Refusal Tree := do
  let m ← t.find k
  let times := m.times.changed change
  pure (if k = [] then { t with root := times } else t.insert k { m with times := times })

def read (t : Tree) (k : MemberKey) : Except Refusal ByteArray := do
  match (← t.find k).content with
  | .file data => pure data
  | .directory => throw .isADirectory

/-- The keys one step beneath a key, in the order in which they came. -/
def below (t : Tree) (k : MemberKey) : List MemberKey :=
  t.order.filter fun j => j ≠ [] ∧ j.parent = k

def list (t : Tree) (k : MemberKey) : Except Refusal (List MemberKey) := do
  if (← t.find k).isDirectory then pure (t.below k) else throw .notADirectory

def height (t : Tree) : Nat := (t.order.map List.length).foldr max 0

/-- A key and what is beneath it, so many steps down, each key before what is beneath it. -/
def preorder (t : Tree) (order : WalkOrder) : Nat → MemberKey → List MemberKey
  | 0, k => [k]
  | n + 1, k => k :: (order.arrange MemberKey.siblingLe (t.below k)).flatMap (t.preorder order n)

/-- A key and all that is beneath it, each key before what is beneath it. -/
def walk (t : Tree) (order : WalkOrder) (k : MemberKey) : Except Refusal (List MemberKey) := do
  let _ ← t.find k
  pure (t.preorder order (t.height - k.length) k)

@[simp] theorem find?_nil (t : Tree) : t.find? [] = some ⟨.directory, t.root⟩ := rfl

theorem find?_of_ne_nil (t : Tree) {k : MemberKey} (hk : k ≠ []) :
    t.find? k = t.members.get? k := if_neg hk

theorem find?_empty (now : Instant) {k : MemberKey} (hk : k ≠ []) :
    (empty now).find? k = none := find?_of_ne_nil _ hk

theorem find?_insert (t : Tree) {k : MemberKey} (hk : k ≠ []) (m : Member) (j : MemberKey) :
    (t.insert k m).find? j = if j = k then some m else t.find? j := by
  by_cases hj : j = []
  · subst hj
    rw [if_neg (Ne.symm hk)]
    rfl
  · rw [find?_of_ne_nil _ hj, find?_of_ne_nil _ hj]
    exact Table.get?_put _ _ _ _

theorem order_insert (t : Tree) (k : MemberKey) (m : Member) :
    (t.insert k m).order = if k ∈ t.order then t.order else t.order ++ [k] := by
  rw [order, insert, Table.keys_put]
  congr

theorem mem_order_iff {t : Tree} {k : MemberKey} (hk : k ≠ []) :
    k ∈ t.order ↔ (t.find? k).isSome := by
  rw [find?_of_ne_nil _ hk, Option.isSome_iff_exists]
  exact Table.mem_keys_iff

theorem mem_below {t : Tree} {j k : MemberKey} :
    j ∈ t.below k ↔ j ∈ t.order ∧ j ≠ [] ∧ j.parent = k := by
  simp [below]

end Tree

end ZipMount
