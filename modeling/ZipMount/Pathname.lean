import ZipMount.Text.Pieces
import ZipMount.Text.Utf8

namespace ZipMount

/-- The name of an entry in a directory. -/
abbrev Filename := List UInt8

/-- One step of a path. -/
inductive Component where
  | root
  | here
  | up
  | name (n : Filename)
deriving DecidableEq, Repr

/-- A path as it is written. -/
structure Pathname where
  bytes : List UInt8
deriving DecidableEq, Repr, Inhabited

/-- What tells two paths apart in a hash table: the bytes of the steps in a row, and a mix of their
lengths. The root is no part of it. -/
structure Fingerprint where
  names : List UInt8
  mix : UInt64
deriving DecidableEq, Repr

namespace Component

def ofSegment? (s : Filename) : Option Component :=
  if s = [] ∨ s = [46] then none
  else if s = [46, 46] then some .up
  else some (.name s)

def bytes : Component → List UInt8
  | .root => [47]
  | .here => [46]
  | .up => [46, 46]
  | .name n => n

/-- The place of a kind of step in the order of paths. -/
def rank : Component → Nat
  | .root => 0
  | .here => 1
  | .up => 2
  | .name _ => 3

/-- The order of steps: by kind, and names by their bytes. -/
def le (a b : Component) : Bool :=
  match a, b with
  | .name m, .name n => decide (m ≤ n)
  | _, _ => decide (a.rank ≤ b.rank)

end Component

namespace Pathname

def ofString (s : String) : Pathname := ⟨Text.bytes s⟩

def display (p : Pathname) : String := Text.lossy p.bytes

@[simp] theorem display_ofString (s : String) : (ofString s).display = s := Text.lossy_bytes s

def empty : Pathname := ⟨[]⟩

def isAbsolute (p : Pathname) : Bool := p.bytes.head? == some 47

def segments (p : Pathname) : List Filename := Text.pieces 47 p.bytes

/-- What the first segment stands for: nothing before it is the root, and a dot is a step. -/
def firstComponent (p : Pathname) (s : Filename) : List Component :=
  if s = [] then (if p.isAbsolute then [.root] else [])
  else if s = [46] then [.here]
  else (Component.ofSegment? s).toList

def components (p : Pathname) : List Component :=
  match p.segments with
  | [] => []
  | s :: rest => p.firstComponent s ++ rest.filterMap Component.ofSegment?

def same (a b : Pathname) : Bool := a.components == b.components

/-- Appends a path; an absolute one replaces what is before it. -/
def join (p q : Pathname) : Pathname :=
  if q.isAbsolute then q
  else if p.bytes = [] ∨ p.bytes.getLast? = some 47 then ⟨p.bytes ++ q.bytes⟩
  else ⟨p.bytes ++ 47 :: q.bytes⟩

/-- The segments less those at the end that say nothing. -/
def trimmed (ss : List Filename) : List Filename :=
  (ss.reverse.dropWhile fun s => (Component.ofSegment? s).isNone).reverse

/-- The path before its last step, written as it was; `none` where there is no step but the root. -/
def parent (p : Pathname) : Option Pathname :=
  match p.segments with
  | [] => none
  | first :: rest =>
    let kept := trimmed rest
    if kept = [] then (if first = [] then none else some empty)
    else
      let before := trimmed kept.dropLast
      if p.isAbsolute ∧ before = [] then some ⟨[47]⟩
      else some ⟨Text.joined 47 (first :: before)⟩

def fileName (p : Pathname) : Option Filename :=
  match p.components.getLast? with
  | some (.name n) => some n
  | _ => none

/-- The steps of `p` beneath `base`, if `base` is a start of it. -/
def relativeTo? (p base : Pathname) : Option (List Component) :=
  if base.components.isPrefixOf p.components then
    some (p.components.drop base.components.length)
  else none

def stepsText (cs : List Component) : String :=
  String.intercalate "/" (cs.map fun c => Text.lossy c.bytes)

/-- The order of paths: step by step. -/
def le (a b : Pathname) : Bool := go a.components b.components
where
  go : List Component → List Component → Bool
    | [], _ => true
    | _ :: _, [] => false
    | c :: cs, d :: ds => if c = d then go cs ds else c.le d

/-- The steps other than the root, as they are written. -/
def namesInRow (p : Pathname) : List (List UInt8) :=
  (p.components.filter (· ≠ .root)).map Component.bytes

/-- A word turned right by two bits. -/
def turned (w : UInt64) : UInt64 := (w >>> 2) ||| (w <<< 62)

/-- What a hash table sees of the path. It depends on the steps alone. -/
def fingerprint (p : Pathname) : Fingerprint where
  names := p.namesInRow.flatten
  mix := p.namesInRow.foldl (fun w n => turned (w + UInt64.ofNat n.length)) 0

theorem fingerprint_eq {p q : Pathname} (h : p.components = q.components) :
    p.fingerprint = q.fingerprint := by
  simp [fingerprint, namesInRow, h]

/-- A path that holds a zero byte cannot be put to the host. -/
def hasZero (p : Pathname) : Bool := p.bytes.contains 0

end Pathname

end ZipMount
