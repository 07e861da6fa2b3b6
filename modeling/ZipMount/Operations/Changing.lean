import ZipMount.Operations.Target
import ZipMount.Operations.Reading

namespace ZipMount.Work

def ask {α : Type} (f : World → Except Error α) : Work α := fun w => (f w, w)

/-- Changes the host. The clock that `f` is told of may have to be asked for it. -/
def changeHost (asked : World → World) (p : Pathname)
    (f : Instant → Host → Except IoFault Host) : Work Unit := do
  let h ← ask fun w => Host.answer p (f w.now w.host)
  modify fun w => { asked w with host := h }

/-- Changes the members of a mount that is open for writing, and has it remember that its file is
out of date. -/
def changeTree (asked : World → World) (id : MountId) (p : Pathname)
    (f : Instant → Tree → Except Refusal Tree) : Work Unit := do
  let m ← ask fun w => w.writableMount id
  let t ← ask fun w => Mount.answer p (f w.now m.tree)
  modify fun w => (asked w).setTree id m t

def setTimes (prov : Provider) (p : Path) (change : TimeChange) : Work Unit := do
  match ← ask fun _ => prov.target p with
  | .host q => changeHost id q fun _ h => h.setTimes q change
  | .member i q => changeTree id i q fun _ t => t.retime (.ofPathname q) change

def makeDirectory (prov : Provider) (p : Path) : Work Unit := do
  match ← ask fun _ => prov.target p with
  | .host q => changeHost World.tick q fun now h => h.makeDirectory now q
  | .member i q => changeTree World.tick i q fun now t => t.makeDirectory now (.ofPathname q)

def write (prov : Provider) (p : Path) (data : ByteArray) (mode : WriteMode) : Work Unit := do
  match ← ask fun _ => prov.target p with
  | .host q => changeHost World.tick q fun now h => h.write now q data mode
  | .member i q =>
    changeTree World.tick i q fun now t => t.writeFile now (.ofPathname q) data mode

/-- Deletes a file or an empty directory. The root of an archive is refused whether or not anything
is in it. -/
def delete (prov : Provider) (p : Path) : Work Unit := do
  match ← ask fun _ => prov.target p with
  | .host q => changeHost World.tick q fun now h => h.remove now q
  | .member i q => changeTree id i q fun _ t => t.remove (.ofPathname q)

end ZipMount.Work
