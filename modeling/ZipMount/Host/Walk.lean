import ZipMount.Host.Calls

namespace ZipMount.Host

/-- A directory the walk is in, by its path and its place. -/
structure Ancestor where
  path : Pathname
  loc : Location
deriving DecidableEq

/-- A walk that failed: the path it failed on, and why. -/
structure WalkFault where
  path : Pathname
  fault : IoFault
deriving DecidableEq

def WalkFault.error (f : WalkFault) : Error := .ofHost f.path.display f.fault

def refused {α : Type} (p : Pathname) (r : Except IoFault α) : Except WalkFault α :=
  r.mapError fun f => ⟨p, .walk p.display f⟩

/-- The entry a path of the walk leads to: through a link, if it leads to no directory the walk is
in, nearest first. -/
def enter (h : Host) (ancestors : List Ancestor) (p : Pathname) :
    Except WalkFault (Location × HostNode) := do
  match ← refused p (onPath p (h.find .itself p)) with
  | (_, .link _) =>
    let (loc, n) ← refused p (onPath p (h.find .target p))
    match n, ancestors.find? fun a => a.loc == loc with
    | .directory _, some a => throw ⟨p, .linkLoop p.display a.path.display⟩
    | _, _ => pure (loc, n)
  | found => pure found

/-- The order of names: by their bytes. -/
def nameLe (a b : Filename) : Bool := decide (a ≤ b)

/-- A path and everything beneath it, so many directories deep. -/
def walkFrom (h : Host) (order : WalkOrder) : Nat → List Ancestor → Pathname →
    Except WalkFault (List Pathname)
  | 0, _, p => .ok [p]
  | depth + 1, ancestors, p => do
    match ← h.enter ancestors p with
    | (loc, .directory _) =>
      let names ← refused p (h.list p)
      let below ← (order.arrange nameLe names).mapM fun name =>
        h.walkFrom order depth (⟨p, loc⟩ :: ancestors) (p.join ⟨name⟩)
      pure (p :: below.flatten)
    | _ => pure [p]

/-- How deep a walk can go. Links lead to places the walk is not in, so there are no more of them on
one way down than there are entries, and no more directories between two of them. -/
def walkDepth (h : Host) : Nat := (h.entries.length + 1) * (h.entries.length + 1) + 1

def walk (h : Host) (order : WalkOrder) (p : Pathname) : Except WalkFault (List Pathname) :=
  h.walkFrom order h.walkDepth [] p

end ZipMount.Host
