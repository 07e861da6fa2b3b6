import ZipMount.Error
import ZipMount.FileUri

namespace ZipMount

/-- The parts of a locator on either side of the first colon. -/
structure Locator where
  scheme : String
  rest : String
deriving DecidableEq, Repr

namespace Locator

def jar : String := "jar"

def file : String := "file"

def text (l : Locator) : String := l.scheme ++ ":" ++ l.rest

def isSchemeChar (c : Char) : Bool := c.isAlphanum || c = '+' || c = '-' || c = '.'

/-- A scheme starts with an ASCII letter. -/
def isScheme (s : String) : Bool :=
  match s.toList with
  | [] => false
  | c :: cs => c.isAlpha && cs.all isSchemeChar

def parse (uri : String) : Except Error Locator :=
  let cs := uri.toList
  let scheme := String.ofList (cs.takeWhile (· ≠ ':'))
  match cs.dropWhile (· ≠ ':') with
  | [] => .error (.invalidLocator uri)
  | _ :: rest =>
    if isScheme scheme then .ok ⟨scheme, String.ofList rest⟩ else .error (.invalidLocator uri)

/-- The text with the exclamation mark of every separator of entries written by number. -/
def escapeSeparators : List Char → List Char
  | [] => []
  | c :: cs =>
    if c = '!' ∧ cs.head? = some '/' then '%' :: '2' :: '1' :: escapeSeparators cs
    else c :: escapeSeparators cs

/-- The text before the first separator of entries. -/
def beforeSeparator : List Char → List Char
  | [] => []
  | c :: cs => if c = '!' ∧ cs.head? = some '/' then [] else c :: beforeSeparator cs

def forArchive (scheme : String) (cwd p : Pathname) : Except Error Locator :=
  let uri := String.ofList (escapeSeparators (FileUri.ofPathname cwd p).toList)
  parse (scheme ++ ":" ++ uri ++ "!/")

def archiveFile (l : Locator) : Except Error Pathname :=
  match FileUri.toPathname? (String.ofList (beforeSeparator l.rest.toList)) with
  | some p => .ok p
  | none => .error (.invalidLocator l.text)

end Locator

end ZipMount
