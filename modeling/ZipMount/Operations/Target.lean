import ZipMount.Error
import ZipMount.Path

namespace ZipMount

/-- What a provider finds a path to be. -/
inductive Target where
  | host (p : Pathname)
  | member (mount : MountId) (p : Pathname)
deriving DecidableEq, Repr

namespace Target

def display : Target → String
  | .host p => p.display
  | .member _ p => p.display

def key : Target → MemberKey
  | .host p => .ofPathname p
  | .member _ p => .ofPathname p

end Target

namespace Provider

/-- The provider beneath the filters, and the path as it gets there. -/
def reach : Provider → Path → Provider × Path
  | .granting _ d, p => d.reach p.unwrapped
  | .denying _ d, p => d.reach p.unwrapped
  | base, p => (base, p)

/-- What a path is to a provider that no filter is before. -/
def ownPath : Provider → Path → Except Error Target
  | .host, .host p => .ok (.host p)
  | .archive _, .member m p => .ok (.member m p)
  | base, p => .error (.providerMismatch base.scheme p.display)

/-- What a path is to the provider beneath the filters. -/
def target (prov : Provider) (p : Path) : Except Error Target :=
  (prov.reach p).1.ownPath (prov.reach p).2

end Provider

end ZipMount
