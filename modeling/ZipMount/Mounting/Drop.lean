import ZipMount.World

namespace ZipMount

/-- The mount beneath the proxies of a file system. -/
def FileSystem.mount? (fs : FileSystem) : Option MountId :=
  match fs.innermost with
  | .archive id => some id
  | _ => none

def Path.mounts : Path → List MountId
  | .host _ => []
  | .member id _ => [id]
  | .proxy d fs => d.mounts ++ fs.mount?.toList

namespace World

def dropMount (w : World) (number : Nat) : World :=
  match w.mounts[number]? with
  | some m =>
    if m.isOpen then
      { w with mounts := w.mounts.set number { m with isOpen := false } }.release m
    else w
  | none => w

/-- The mounts in use if some are: a mount uses those that its backing path is on, which are older.
-/
def inUse (w : World) (held : List Nat) : List Nat :=
  (List.range w.mounts.length).reverse.foldl
    (fun used number =>
      match w.mounts[number]? with
      | some m => if number ∈ used then used ++ m.backing.mounts.map MountId.number else used
      | none => used)
    held

/-- Forgets all mounts but those that some file systems need. -/
def keepOnly (w : World) (held : List FileSystem) : World :=
  let used := w.inUse (held.filterMap fun fs => fs.mount?.map MountId.number)
  ((List.range w.mounts.length).filter (· ∉ used)).foldl dropMount w

end World

end ZipMount
