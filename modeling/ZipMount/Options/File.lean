import ZipMount.Options.Basic
import ZipMount.Toml.Document

namespace ZipMount.Options

/-- Reads the value under a key of a table, if there is one. -/
def readKey {α : Type} (es : Toml.Entries) (key : String) (read : Toml.Node → Option α) :
    Option (Option α) :=
  match es.lookup key with
  | none => some none
  | some v => (read v).map some

def truth? : Toml.Node → Option Bool
  | .truth b => some b
  | _ => none

def text? : Toml.Node → Option String
  | .text s => some s
  | _ => none

def exactMethod? (s : String) : Option Compression :=
  if s = "STORED" then some .stored
  else if s = "DEFLATED" then some .deflated
  else none

def isVoid : Toml.Node → Bool
  | .array [] => true
  | .closed [] => true
  | .table _ _ [] => true
  | .tables [] => true
  | _ => false

/-- A packing method: its name, or a table that holds nothing but that name with a void value. -/
def method? : Toml.Node → Option Compression
  | .text s => exactMethod? s
  | .closed [(key, v)] => if isVoid v then exactMethod? key else none
  | .table _ _ [(key, v)] => if isVoid v then exactMethod? key else none
  | _ => none

def ofEntries? (es : Toml.Entries) : Option Options := do
  let create ← readKey es createKey truth?
  let owner ← readKey es ownerKey text?
  let group ← readKey es groupKey text?
  let method ← readKey es compressionKey method?
  pure ⟨create, owner, group, method⟩

def ofToml? (text : String) : Option Options := (Toml.parse? text).bind ofEntries?

end ZipMount.Options
