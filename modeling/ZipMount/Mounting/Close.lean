import ZipMount.Archive.Image
import ZipMount.Files

namespace ZipMount

namespace World

/-- Writes a mount's members to its file, if the file is out of date. -/
def writingBack (id : MountId) (m : Mount) : Action Unit := do
  if m.dirty && !m.readOnly then
    let data ← Action.ofExcept ((m.tree.encode m.options.method).mapError
      (Failure.noted s!"Could not encode archive {m.backing.display}"))
    Action.noted s!"Could not write archive {m.backing.display}" (m.backing.write data .replace)
    modify fun w => w.setMount id { m with dirty := false }

def closeMount (w : World) (id : MountId) (m : Mount) : Except Failure Unit × World :=
  let closed := { m with isOpen := false }
  match writingBack id closed (w.setMount id closed) with
  | (.ok (), w) => (.ok (), w.release m)
  | (.error (.error e), w) => (.error (.error e), w.release m)
  | (.error (.offCalendar t), w) => (.error (.offCalendar t), w)

end World

namespace FileSystem

/-- Whether the file system is open. The host's always is. -/
def isOpen (fs : FileSystem) (w : World) : Bool :=
  match fs.innermost with
  | .archive id => ((w.mount? id).map Mount.isOpen).getD false
  | _ => true

/-- Whether nothing can be written on the file system. -/
def isReadOnly (fs : FileSystem) (w : World) : Bool :=
  match fs.innermost with
  | .archive id => ((w.mount? id).map Mount.readOnly).getD false
  | _ => false

def stamp (time : Instant) (p : Path) : Action Unit :=
  Action.noted s!"Could not set time attributes on {p.display}"
    (.ofWork (Work.setTimes p.provider p (.all time)))

/-- Gives everything on a file system but its root one time. -/
def stampAll (fs : FileSystem) (time : Instant) : Action Unit := do
  let root := fs.root
  let found ← Action.ask fun w => root.provider.walk w .sorted root
  found.tail.forM (stamp time)

/-- An action's outcome and that of one which comes after it in any case: the earlier failure is
reported first. -/
def andThen (first second : Action Unit) : Action Unit := fun w =>
  match first w with
  | (.error (.offCalendar t), w) => (.error (.offCalendar t), w)
  | (.error (.error e), w) =>
    match second w with
    | (.error (.offCalendar t), w) => (.error (.offCalendar t), w)
    | (_, w) => (.error (.error e), w)
  | (.ok (), w) => second w

/-- Closes a file system. One that is shared stays open, and one that is closed stays closed. -/
def close : FileSystem → Action Unit
  | .host => .fail (.unsupported "close" Locator.file)
  | .archive id => fun w =>
    match w.mount? id with
    | some m => if m.isOpen then w.closeMount id m else (.ok (), w)
    | none => (.ok (), w)
  | .substituted _ d _ => d.close
  | .shared _ _ => pure ()
  | .stamping _ d time => fun w =>
    if d.isOpen w then
      match time with
      | some t => andThen (d.stampAll t) d.close w
      | none => d.close w
    else (.ok (), w)

end FileSystem

end ZipMount
