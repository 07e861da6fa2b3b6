import ZipMount.Toml.Lexeme
import ZipMount.Toml.Node

namespace ZipMount.Toml

/-- The values of an array after its bracket; a comma may follow the last. -/
def arrayRest (value : Scan Node) : Nat → Scan (List Node)
  | 0, _ => none
  | n + 1, cs =>
    match skipLines cs.length cs with
    | ']' :: rest => some ([], rest)
    | cs => do
      let (v, rest) ← value cs
      match skipLines rest.length rest with
      | ',' :: rest => do
        let (vs, rest) ← arrayRest value n rest
        pure (v :: vs, rest)
      | ']' :: rest => pure ([v], rest)
      | _ => none

/-- A setting: a key, an equals sign and a value. -/
def setting (value : Scan Node) : Scan (List String × String × Node) := fun cs => do
  let (parts, rest) ← key cs
  let rest ← mark '=' rest
  let (v, rest) ← value (skipBlanks rest)
  let last ← parts.getLast?
  pure ((parts.dropLast, last, v), rest)

/-- The settings of a table in braces, put into `es`; no comma follows the last. -/
def closedRest (value : Scan Node) : Nat → Entries → Scan Entries
  | 0, _, _ => none
  | n + 1, es, cs => do
    let ((path, key, v), rest) ← setting value cs
    let es ← setPath es path key v
    match skipBlanks rest with
    | ',' :: rest => closedRest value n es rest
    | '\x7d' :: rest => pure (es, rest)
    | _ => none

/-- A value, with at most `depth` brackets within one another, counting one for what is in them. -/
def value : Nat → Scan Node
  | 0, _ => none
  | depth + 1, cs =>
    match cs with
    | '\x22' :: _ => (string cs).map fun r => (.text r.1, r.2)
    | '\x27' :: _ => (string cs).map fun r => (.text r.1, r.2)
    | '[' :: rest =>
      if depth = 0 then none
      else (arrayRest (value depth) cs.length rest).map fun r => (.array r.1, r.2)
    | '\x7b' :: rest =>
      if depth = 0 then none
      else match skipBlanks rest with
        | '\x7d' :: rest => some (.closed [], rest)
        | rest => (closedRest (value depth) cs.length [] rest).map fun r => (.closed r.1, r.2)
    | 't' :: 'r' :: 'u' :: 'e' :: rest => some (.truth true, rest)
    | 'f' :: 'a' :: 'l' :: 's' :: 'e' :: rest => some (.truth false, rest)
    | _ =>
      (numberOrMoment cs).map fun r =>
        let written := String.ofList (cs.take (cs.length - r.2.length))
        (if r.1 then .moment written else .number written, r.2)

def header (d : Draft) (cs : List Char) : Option (Draft × List Char) :=
  match cs with
  | '[' :: rest => do
    let (path, rest) ← key rest
    let rest ← mark ']' rest
    let rest ← mark ']' rest
    let rest ← endOfLine? rest
    let d ← d.openItem path
    pure (d, rest)
  | _ => do
    let (path, rest) ← key cs
    let rest ← mark ']' rest
    let rest ← endOfLine? rest
    let d ← d.openTable path
    pure (d, rest)

/-- The lines of a document, at most `n` of them. -/
def lines : Nat → Draft → List Char → Option Draft
  | 0, _, _ => none
  | n + 1, d, cs =>
    match skipBlanks cs with
    | [] => some d
    | '[' :: rest => do
      let (d, rest) ← header d rest
      lines n d rest
    | '#' :: rest => do
      let rest ← endOfLine? ('#' :: rest)
      lines n d rest
    | c :: rest =>
      match newline? (c :: rest) with
      | some rest => lines n d rest
      | none => do
        let ((path, key, v), rest) ← setting (value depthLimit) (c :: rest)
        let rest ← endOfLine? rest
        let d ← d.set path key v
        lines n d rest

/-- The text without a byte order mark at its front. -/
def withoutMark (cs : List Char) : List Char :=
  match cs with
  | c :: rest => if c.toNat = 0xFEFF then rest else cs
  | [] => []

def parse? (text : String) : Option Entries := do
  let cs := withoutMark text.toList
  let d ← lines (cs.length + 1) Draft.start cs
  d.finish

end ZipMount.Toml
