namespace ZipMount.Toml

/-- A value. A table remembers whether it was only implied by a longer name, and whether that name
was a dotted key; a table written in braces is closed. Numbers and moments are kept as written. -/
inductive Node where
  | text (s : String)
  | truth (b : Bool)
  | number (written : String)
  | moment (written : String)
  | array (items : List Node)
  | closed (entries : List (String × Node))
  | table (implied dotted : Bool) (entries : List (String × Node))
  | tables (items : List Node)

/-- The entries of a table, in the order in which they were set. -/
abbrev Entries := List (String × Node)

def Entries.put : Entries → String → Node → Entries
  | [], key, v => [(key, v)]
  | (k, w) :: rest, key, v => if k = key then (key, v) :: rest else (k, w) :: put rest key v

def Entries.drop (es : Entries) (key : String) : Entries := es.filter fun e => e.1 ≠ key

/-- Goes down a path of keys, implying the tables that are missing, and changes the entries found at
its end. `byKey` says that the path is that of a dotted key, which may not enter a table that was
defined by itself. `change` is told whether the table it changes came from a dotted key. -/
def alter {β : Type} (byKey : Bool) (change : Bool → Entries → Option (Entries × β)) :
    List String → Bool → Entries → Option (Entries × β)
  | [], dotted, es => change dotted es
  | k :: ks, _, es =>
    match es.lookup k with
    | none => do
      let (sub, b) ← alter byKey change ks byKey []
      pure (es.put k (.table true byKey sub), b)
    | some (.table implied d sub) =>
      if byKey && !implied then none
      else do
        let (sub, b) ← alter byKey change ks d sub
        pure (es.put k (.table implied d sub), b)
    | some (.tables items) =>
      match items.getLast? with
      | some (.table implied d sub) => do
        let (sub, b) ← alter byKey change ks d sub
        pure (es.put k (.tables (items.dropLast ++ [.table implied d sub])), b)
      | _ => none
    | some _ => none

def setPath (es : Entries) (path : List String) (key : String) (v : Node) : Option Entries :=
  (alter true
    (fun dotted found =>
      if dotted = path.isEmpty then none
      else match found.lookup key with
        | some _ => none
        | none => some (found.put key v, ()))
    path false es).map (·.1)

/-- A document while it is read: the tables finished so far, and the one being filled. -/
structure Draft where
  root : Entries
  path : List String
  inArray : Bool
  entries : Entries

/-- Nothing read yet: the root table is being filled. -/
def Draft.start : Draft := ⟨[], [], false, []⟩

/-- Puts the table being filled into its place. -/
def Draft.finish (d : Draft) : Option Entries :=
  match d.path.getLast? with
  | none => some d.entries
  | some key =>
    (alter false
      (fun _ found =>
        match d.inArray, found.lookup key with
        | true, none => some (found.put key (.tables [.table false false d.entries]), ())
        | true, some (.tables items) =>
          some (found.put key (.tables (items ++ [.table false false d.entries])), ())
        | false, none => some (found.put key (.table false false d.entries), ())
        | false, some (.table true _ _) => some (found.put key (.table false false d.entries), ())
        | _, _ => none)
      d.path.dropLast false d.root).map (·.1)

/-- Begins the table of a header. One that was implied by a longer header keeps its entries. -/
def Draft.openTable (d : Draft) (path : List String) : Option Draft := do
  let root ← d.finish
  let key ← path.getLast?
  let (root, entries) ← alter false
    (fun _ found =>
      match found.lookup key with
      | none => some (found, [])
      | some (.table true false es) => some (found.drop key, es)
      | some _ => none)
    path.dropLast false root
  pure ⟨root, path, false, entries⟩

/-- Begins the next table of an array of tables. -/
def Draft.openItem (d : Draft) (path : List String) : Option Draft := do
  let root ← d.finish
  let key ← path.getLast?
  let (root, _) ← alter false
    (fun _ found =>
      match found.lookup key with
      | none => some (found.put key (.tables []), ())
      | some (.tables _) => some (found, ())
      | some _ => none)
    path.dropLast false root
  pure ⟨root, path, true, []⟩

/-- Sets a key in the table being filled. -/
def Draft.set (d : Draft) (path : List String) (key : String) (v : Node) : Option Draft := do
  let entries ← setPath d.entries path key v
  pure { d with entries := entries }

end ZipMount.Toml
