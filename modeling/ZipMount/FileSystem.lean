import ZipMount.Provider
import ZipMount.Time.Instant

namespace ZipMount

/-- A mounted archive, by its number and that of its registry. -/
structure MountId where
  number : Nat
  registry : Nat
deriving DecidableEq, Repr

/-- A file system. Proxies are told apart by a number of their own. -/
inductive FileSystem where
  | host
  | archive (mount : MountId)
  /-- Has another provider. -/
  | substituted (number : Nat) (delegate : FileSystem) (provider : Provider)
  /-- Stays open when it is closed, because others use it. -/
  | shared (number : Nat) (delegate : FileSystem)
  /-- Gives all members one time before it is closed, if it has been told a time. -/
  | stamping (number : Nat) (delegate : FileSystem) (time : Option Instant)
deriving DecidableEq, Repr

namespace FileSystem

/-- Who performs operations on the paths of the file system. -/
def provider : FileSystem → Provider
  | .host => .host
  | .archive m => .archive m.registry
  | .substituted _ _ p => p
  | .shared _ d => d.provider
  | .stamping _ d _ => d.provider

def delegate? : FileSystem → Option FileSystem
  | .host => none
  | .archive _ => none
  | .substituted _ d _ => some d
  | .shared _ d => some d
  | .stamping _ d _ => some d

/-- The file system without its outermost proxy, if it has one. -/
def unwrapped (fs : FileSystem) : FileSystem := fs.delegate?.getD fs

def innermost : FileSystem → FileSystem
  | .substituted _ d _ => d.innermost
  | .shared _ d => d.innermost
  | .stamping _ d _ => d.innermost
  | fs => fs

def same (a b : FileSystem) : Bool := a.innermost == b.innermost

@[simp] theorem innermost_substituted (n : Nat) (d : FileSystem) (p : Provider) :
    (substituted n d p).innermost = d.innermost := rfl

@[simp] theorem innermost_unwrapped (fs : FileSystem) : fs.unwrapped.innermost = fs.innermost := by
  cases fs <;> rfl

end FileSystem

end ZipMount
