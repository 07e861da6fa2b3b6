import ZipMount.Access
import ZipMount.Locator

namespace ZipMount

/-- Who performs operations. -/
inductive Provider where
  /-- Serves host paths. -/
  | host
  /-- Serves members of archives. Archives opened by locator are registered under its number. -/
  | archive (registry : Nat)
  /-- Passes everything on, but takes some modes as granted whenever they are asked for. -/
  | granting (allowed : List AccessMode) (delegate : Provider)
  /-- Passes everything on, but refuses some modes whenever they are asked for. -/
  | denying (denied : List AccessMode) (delegate : Provider)
deriving DecidableEq, Repr

/-- The scheme of the locators a provider is for. -/
def Provider.scheme : Provider → String
  | .host => Locator.file
  | .archive _ => Locator.jar
  | .granting _ d => d.scheme
  | .denying _ d => d.scheme

end ZipMount
