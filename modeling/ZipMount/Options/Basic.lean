import ZipMount.Error
import ZipMount.Table
import ZipMount.Text.Letters

namespace ZipMount

/-- A table of texts. -/
abbrev Env := Table String String

/-- The defaults overlaid with overrides, whose keys win. -/
def Env.merge (defaults overrides : Env) : Env :=
  overrides.foldl (fun e kv => Table.put e kv.1 kv.2) defaults

/-- How the contents of files are packed. -/
inductive Compression where
  | stored
  | deflated
deriving DecidableEq, Repr

namespace Compression

def name : Compression → String
  | .stored => "STORED"
  | .deflated => "DEFLATED"

def ofName? (s : String) : Option Compression :=
  let word := Text.inCapitals s
  if word = "STORED" then some .stored
  else if word = "DEFLATED" then some .deflated
  else none

def refusal (s : String) : String :=
  "Invalid compression method '" ++ s ++ "'. Must be one of: STORED, DEFLATED"

end Compression

/-- The options an archive mount knows; what is not set has a default. -/
structure Options where
  create : Option Bool
  defaultOwner : Option String
  defaultGroup : Option String
  compression : Option Compression
deriving DecidableEq, Repr

namespace Options

def unset : Options := ⟨none, none, none, none⟩

/-- The key of the option to create a missing archive. -/
def createKey : String := "create"

def ownerKey : String := "defaultOwner"

def groupKey : String := "defaultGroup"

def compressionKey : String := "compressionMethod"

def creates (o : Options) : Bool := o.create.getD false

def owner (principal : String) (o : Options) : String := o.defaultOwner.getD principal

def group (principal : String) (o : Options) : String := o.defaultGroup.getD principal

def method (o : Options) : Compression := o.compression.getD .deflated

/-- The truth value a word names, in small letters or not. -/
def boolOfName? (s : String) : Option Bool :=
  let word := Text.inSmalls s
  if word = "true" then some true
  else if word = "false" then some false
  else none

def readField {α : Type} (e : Env) (key : String) (read : String → Option α) :
    Except Error (Option α) :=
  match Table.get? e key with
  | none => .ok none
  | some text =>
    match read text with
    | some a => .ok (some a)
    | none => .error (.invalidOption key text)

/-- Reads the options a table sets. Keys of no option are let alone. -/
def ofEnv (e : Env) : Except Error Options := do
  let create ← readField e createKey boolOfName?
  let compression ← readField e compressionKey Compression.ofName?
  pure ⟨create, Table.get? e ownerKey, Table.get? e groupKey, compression⟩

def boolName (b : Bool) : String := if b then "true" else "false"

def toEnv (o : Options) : Env :=
  (o.create.toList.map fun b => (createKey, boolName b))
    ++ (o.defaultOwner.toList.map fun s => (ownerKey, s))
    ++ (o.defaultGroup.toList.map fun s => (groupKey, s))
    ++ (o.compression.toList.map fun m => (compressionKey, m.name))

/-- The table that sets owner and group to a principal. -/
def ownerEnv (principal : String) : Env := [(ownerKey, principal), (groupKey, principal)]

/-- The table for an archive that may be created. -/
def createEnv (principal : String) : Env := Table.put (ownerEnv principal) createKey "true"

end Options

end ZipMount
