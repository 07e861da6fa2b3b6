import ZipMount.Mounting.Close
import ZipMount.Mounting.Open

namespace ZipMount

/-- The mounts by the text of their backing paths, and the texts that were ever missed. -/
structure Cache where
  mounts : Table String FileSystem
  /-- One lock for each text that was missed; locks are kept when the cache is closed. -/
  locks : List String

namespace Cache

def empty : Cache := ⟨[], []⟩

/-- The text under which the mount of a backing file is kept. -/
def keyOf (backing : Path) : String := backing.unwrapped.display

def size (c : Cache) : Nat := c.mounts.length

def withLock (c : Cache) (key : String) : Cache :=
  if key ∈ c.locks then c else { c with locks := c.locks ++ [key] }

/-- Mounts a file so that closing the mount does nothing. -/
def openShared (provider : Provider) (backing : Path) (env : Env) : Action FileSystem := do
  let fs ← provider.newFileSystem backing env
  pure (.shared (← Action.newNumber) fs)

/-- The mount of a backing file, which is mounted if it is not yet. What fails is not kept. -/
def getOrCreate (c : Cache) (provider : Provider) (backing : Path) (env : Env) (w : World) :
    Except Failure FileSystem × Cache × World :=
  let key := keyOf backing
  match c.mounts.get? key with
  | some fs => (.ok fs, c, w)
  | none =>
    let c := c.withLock key
    match openShared provider backing env w with
    | (.ok fs, w) => (.ok fs, { c with mounts := c.mounts.put key fs }, w)
    | (.error f, w) => (.error f, c, w)

/-- Closes the mounts beneath some shared ones, all of them even if some fail; the first failure is
reported. -/
def closeAll : List FileSystem → Action Unit
  | [] => pure ()
  | fs :: rest => FileSystem.andThen fs.unwrapped.close (closeAll rest)

def close (c : Cache) (w : World) : Except Failure Unit × Cache × World :=
  let (r, w) := closeAll (c.mounts.map Prod.snd) w
  (r, { c with mounts := [] }, w)

end Cache

end ZipMount
