import ZipMount.Text.Quoted
import ZipMount.World

namespace ZipMount

def shownRecord (name : String) (fields : List (String × String)) : String :=
  name ++ " \x7b " ++ String.intercalate ", " (fields.map fun f => f.1 ++ ": " ++ f.2) ++ " \x7d"

def shownSet (items : List String) : String := "\x7b" ++ String.intercalate ", " items ++ "\x7d"

def Pathname.shown (p : Pathname) : String := Text.quoted p.bytes

def shownBool (b : Bool) : String := if b then "true" else "false"

def Path.shown : Path → String
  | .host p => "LocalPath(" ++ p.shown ++ ")"
  | .member _ p => "ArchivePath(" ++ p.shown ++ ")"
  | .proxy d _ => "OverridePath(" ++ d.shown ++ ")"

def Instant.shown (t : Instant) : String :=
  shownRecord "SystemTime" [("tv_sec", toString t.seconds), ("tv_nsec", toString t.nanos)]

def AccessMode.shownAll (modes : List AccessMode) : String :=
  shownSet (([.read, .write, .execute].filter (· ∈ modes)).map AccessMode.name)

/-- A provider with the filters before it, and the files its registry holds. -/
def Provider.shown (w : World) : Provider → String
  | .host => "LocalProvider"
  | .archive n =>
    let files := (w.registrations.filter fun r => r.1 == n).map fun r => r.2.shown
    shownRecord "ArchiveProvider" [("mounts", shownRecord "Mutex" [("data", shownSet files)])]
  | .granting allowed d =>
    shownRecord "OverrideProvider"
      [("delegate", d.shown w), ("allowed_modes", AccessMode.shownAll allowed)]
  | .denying denied d =>
    shownRecord "Deny" [("denied", AccessMode.names denied), ("delegate", d.shown w)]

def FileSystem.shown (w : World) : FileSystem → String
  | .host => shownRecord "LocalFileSystem" [("provider", Provider.shown w .host)]
  | .archive id =>
    match w.mount? id with
    | some m =>
      shownRecord "ArchiveFileSystem"
        [("backing", m.backing.shown), ("read_only", shownBool m.readOnly),
          ("open", shownBool m.isOpen)]
    | none => "ArchiveFileSystem"
  | .substituted _ d p =>
    shownRecord "OverrideFileSystem" [("delegate", d.shown w), ("provider", p.shown w)]
  | .shared _ d => shownRecord "CacheableFileSystem" [("delegate", d.shown w)]
  | .stamping _ d time =>
    shownRecord "ReproducibleFileSystem"
      [("delegate", d.shown w),
        ("time", match time with
          | some t => "Some(" ++ t.shown ++ ")"
          | none => "None")]

end ZipMount
