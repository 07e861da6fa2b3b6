import ZipMount.Host.Walk
import ZipMount.Operations.Target
import ZipMount.World

namespace ZipMount

namespace Mount

def answer {α : Type} (p : Pathname) (r : Except Refusal α) : Except Error α :=
  r.mapError (Refusal.error p.display)

/-- The modes a member does not grant: nothing is written in a read-only archive, and only
directories are executed, that is, searched. -/
def withholds (m : Mount) (x : Member) : AccessMode → Bool
  | .read => false
  | .write => m.readOnly
  | .execute => !x.isDirectory

/-- Checks that a member is there and grants some modes. -/
def access (m : Mount) (p : Pathname) (modes : List AccessMode) : Except Error Unit := do
  let x ← answer p (m.tree.find (.ofPathname p))
  if modes.any (m.withholds x) then throw (.permissionDenied p.display modes)

end Mount

namespace Host

/-- Checks that something is there and grants some modes. What cannot be reached is not there. -/
def check (h : Host) (p : Pathname) (modes : List AccessMode) : Except Error Unit :=
  (h.access p modes).mapError fun
    | .noEntry => .notFound p.display
    | .notDirectory => .notFound p.display
    | .denied => .permissionDenied p.display modes
    | e => .ofHost p.display (.host e)

def answer {α : Type} (p : Pathname) (r : Except IoFault α) : Except Error α :=
  r.mapError (Error.ofHost p.display)

end Host

/-- The order of paths that a walk takes by name. -/
def Path.le (a b : Path) : Bool := a.pathname.le b.pathname

/-- A path and everything beneath it, found by asking of each path what it is and what is in it, so
many directories deep. -/
def walkBy (attributes : Path → Except Error Attributes) (list : Path → Except Error (List Path))
    (order : WalkOrder) : Nat → Path → Except Error (List Path)
  | 0, p => .ok [p]
  | depth + 1, p => do
    if (← attributes p).isDirectory then
      let below ← (order.arrange Path.le (← list p)).mapM (walkBy attributes list order depth)
      pure (p :: below.flatten)
    else pure [p]

/-- More directories than can be in one another: on the host every one makes the path longer, and in
an archive every one makes the key longer. -/
def World.depth (w : World) : Nat :=
  w.mounts.foldl (fun n m => n + m.tree.height + 1) Host.pathLimit

namespace Provider

/-- Checks that a path leads to something that grants some modes. -/
def check : Provider → World → Path → List AccessMode → Except Error Unit
  | .granting allowed d, w, p, modes =>
    match AccessMode.remaining allowed modes with
    | some rest => d.check w p.unwrapped rest
    | none => .ok ()
  | .denying denied d, w, p, modes =>
    if modes.any (· ∈ denied) then .error (.permissionDenied p.display modes)
    else d.check w p.unwrapped modes
  | base, w, p, modes => do
    match ← base.ownPath p with
    | .host q => w.host.check q modes
    | .member id q => (← w.openMount id).access q modes

def attributes (prov : Provider) (w : World) (p : Path) : Except Error Attributes := do
  match ← prov.target p with
  | .host q => Host.answer q (w.host.stat q)
  | .member id q =>
    let m ← w.openMount id
    pure (← Mount.answer q (m.tree.find (.ofPathname q))).attributes

def read (prov : Provider) (w : World) (p : Path) : Except Error ByteArray := do
  match ← prov.target p with
  | .host q => Host.answer q (w.host.read q)
  | .member id q =>
    let m ← w.openMount id
    Mount.answer q (m.tree.read (.ofPathname q))

def list (prov : Provider) (w : World) (p : Path) : Except Error (List Path) := do
  match ← prov.target p with
  | .host q =>
    let names ← Host.answer q (w.host.list q)
    pure (names.map fun n => .host (q.join ⟨n⟩))
  | .member id q =>
    let m ← w.openMount id
    pure ((← Mount.answer q (m.tree.list (.ofPathname q))).map (.ofKey id))

/-- A path and everything beneath it, each directory before what is in it. A provider that refuses
modes has no walk of its own. -/
def walk : Provider → World → WalkOrder → Path → Except Error (List Path)
  | .granting _ d, w, order, p => d.walk w order p.unwrapped
  | .denying denied d, w, order, p =>
    walkBy ((denying denied d).attributes w) ((denying denied d).list w) order w.depth p
  | base, w, order, p => do
    match ← base.ownPath p with
    | .host q =>
      let found ← (w.host.walk order q).mapError Host.WalkFault.error
      pure (found.map .host)
    | .member id q =>
      let m ← w.openMount id
      pure ((← Mount.answer q (m.tree.walk order (.ofPathname q))).map (.ofKey id))

end Provider

end ZipMount
