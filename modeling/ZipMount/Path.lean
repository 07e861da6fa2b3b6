import ZipMount.FileSystem
import ZipMount.MemberKey

namespace ZipMount

/-- A path with the file system it is on. -/
inductive Path where
  | host (p : Pathname)
  | member (mount : MountId) (p : Pathname)
  | proxy (delegate : Path) (fs : FileSystem)
deriving DecidableEq, Repr

namespace Path

def fileSystem : Path → FileSystem
  | .host _ => .host
  | .member m _ => .archive m
  | .proxy _ fs => fs

def provider (p : Path) : Provider := p.fileSystem.provider

def pathname : Path → Pathname
  | .host p => p
  | .member _ p => p
  | .proxy d _ => d.pathname

def display (p : Path) : String := p.pathname.display

def fileName? (p : Path) : Option String := p.pathname.fileName.map Text.lossy

def resolve : Path → String → Path
  | .host p, other => .host (p.join (.ofString other))
  | .member m p, other => .member m (p.join (.ofString other))
  | .proxy d _, other => d.resolve other

def parent? : Path → Option Path
  | .host p => p.parent.map .host
  | .member m p => p.parent.map (.member m)
  | .proxy d _ => d.parent?

def delegate? : Path → Option Path
  | .host _ => none
  | .member .. => none
  | .proxy d _ => some d

/-- The path without its outermost proxy, if it has one. -/
def unwrapped (p : Path) : Path := p.delegate?.getD p

def innermost : Path → Path
  | .proxy d _ => d.innermost
  | p => p

/-- The same steps on the same file system, beneath the proxies. -/
def same (a b : Path) : Bool :=
  a.innermost.pathname.same b.innermost.pathname
    && a.innermost.fileSystem.same b.innermost.fileSystem

/-- What a hash table sees of the path. -/
def fingerprint (p : Path) : Fingerprint := p.innermost.pathname.fingerprint

def ofKey (m : MountId) (k : MemberKey) : Path := .member m k.pathname

/-- The path through a filter that takes some modes as granted. -/
def granted (allowed : List AccessMode) (p : Path) : Path :=
  .proxy p (.substituted 0 p.fileSystem (.granting allowed p.provider))

/-- The path with every probe for writing granted. A mount that insists on a writable file can then
be had of a file that is not. -/
def assumingWritable (p : Path) : Path := p.granted [.write]

/-- The path through a filter that refuses some modes. -/
def denied (modes : List AccessMode) (p : Path) : Path :=
  .proxy p (.substituted 0 p.fileSystem (.denying modes p.provider))

@[simp] theorem pathname_innermost (p : Path) : p.innermost.pathname = p.pathname := by
  induction p with
  | proxy d fs ih => exact ih
  | _ => rfl

@[simp] theorem innermost_unwrapped (p : Path) : p.unwrapped.innermost = p.innermost := by
  cases p <;> rfl

@[simp] theorem pathname_unwrapped (p : Path) : p.unwrapped.pathname = p.pathname := by
  cases p <;> rfl

end Path

namespace FileSystem

/-- A path on the file system. On an archive every path is taken from the root. -/
def path : FileSystem → String → Path
  | .host, text => .host (.ofString text)
  | .archive m, text => .member m (Pathname.join ⟨[47]⟩ (.ofString text))
  | .substituted _ d _, text => d.path text
  | .shared _ d, text => d.path text
  | .stamping _ d _, text => d.path text

/-- The top directory of the file system. -/
def root : FileSystem → Path
  | .host => .host ⟨[47]⟩
  | .archive m => .ofKey m []
  | .substituted _ d _ => d.root
  | .shared _ d => d.root
  | .stamping _ d _ => d.root

def separator : String := "/"

end FileSystem

end ZipMount
