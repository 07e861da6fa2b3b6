namespace ZipMount.Toml

/-- Takes something off the front of a text. -/
abbrev Scan (α : Type) := List Char → Option (α × List Char)

/-- The most parts of a key and the most brackets within one another, and one more. -/
def depthLimit : Nat := 80

def isBlank (c : Char) : Bool := c = ' ' || c = '\t'

/-- Characters of a line: all but the control characters, of which the tab is allowed. -/
def isLineChar (c : Char) : Bool := c = '\t' || (0x20 ≤ c.toNat && c.toNat ≠ 0x7F)

def skipBlanks (cs : List Char) : List Char := cs.dropWhile isBlank

def newline? : List Char → Option (List Char)
  | '\n' :: cs => some cs
  | '\r' :: '\n' :: cs => some cs
  | _ => none

def skipComment (cs : List Char) : List Char :=
  match cs with
  | '#' :: rest => rest.dropWhile isLineChar
  | _ => cs

/-- The text after blanks, a comment, and the end of the line or of the text. -/
def endOfLine? (cs : List Char) : Option (List Char) :=
  match skipComment (skipBlanks cs) with
  | [] => some []
  | rest => newline? rest

/-- The text after blanks, comments and line ends; at most `n` of them. -/
def skipLines : Nat → List Char → List Char
  | 0, cs => cs
  | n + 1, cs =>
    match newline? (skipComment (skipBlanks cs)) with
    | some rest => skipLines n rest
    | none => skipBlanks cs

def hexValue? (c : Char) : Option Nat :=
  if '0' ≤ c ∧ c ≤ '9' then some (c.toNat - 48)
  else if 'a' ≤ c ∧ c ≤ 'f' then some (c.toNat - 87)
  else if 'A' ≤ c ∧ c ≤ 'F' then some (c.toNat - 55)
  else none

/-- The character of a number given by so many hexadecimal digits. -/
def escapeNumber (count : Nat) (cs : List Char) : Option (Char × List Char) := do
  let ds := cs.take count
  if ds.length < count then none
  else
    let vs ← ds.mapM hexValue?
    let n := vs.foldl (fun a v => 16 * a + v) 0
    if h : n.isValidChar then some (Char.ofNatAux n h, cs.drop count) else none

/-- The character of an escape, after its backslash. -/
def escape : Scan Char
  | 'b' :: cs => some ('\x08', cs)
  | 't' :: cs => some ('\t', cs)
  | 'n' :: cs => some ('\n', cs)
  | 'f' :: cs => some ('\x0c', cs)
  | 'r' :: cs => some ('\r', cs)
  | '\x22' :: cs => some ('\x22', cs)
  | '\\' :: cs => some ('\\', cs)
  | 'u' :: cs => escapeNumber 4 cs
  | 'U' :: cs => escapeNumber 8 cs
  | _ => none

/-- The rest of a string in quotation marks, to its end on the same line. -/
def basicRest : Nat → Scan (List Char)
  | 0, _ => none
  | n + 1, cs =>
    match cs with
    | '\x22' :: rest => some ([], rest)
    | '\\' :: rest => do
      let (c, rest) ← escape rest
      let (s, rest) ← basicRest n rest
      pure (c :: s, rest)
    | c :: rest =>
      if isLineChar c then do
        let (s, rest) ← basicRest n rest
        pure (c :: s, rest)
      else none
    | [] => none

/-- The rest of a string in single quotation marks, to its end on the same line. -/
def literalRest : Scan (List Char)
  | [] => none
  | c :: rest =>
    if c = '\x27' then some ([], rest)
    else if isLineChar c then do
      let (s, rest) ← literalRest rest
      pure (c :: s, rest)
    else none

/-- How many of the quotation marks in a row belong to a string of several lines, and whether it
ends with them: three end it, and up to two may stand before those. -/
def quotesWithin (run : Nat) : Nat × Bool :=
  if run < 3 then (run, false) else (min (run - 3) 2, true)

/-- The text after blanks and line ends. A carriage return counts only before a line feed. -/
def skipSpace : List Char → List Char
  | [] => []
  | c :: cs =>
    if isBlank c || c = '\n' || (c = '\r' && cs.head? = some '\n') then skipSpace cs else c :: cs

/-- The rest of a string of several lines between threefold marks. In a basic string a backslash
starts an escape, or joins the line to the next text. -/
def linesRest (mark : Char) (basic : Bool) : Nat → Scan (List Char)
  | 0, _ => none
  | n + 1, cs =>
    match cs with
    | [] => none
    | c :: rest =>
      if c = mark then
        let run := (cs.takeWhile (· = mark)).length
        let (within, ends) := quotesWithin run
        let quotes := List.replicate within mark
        if ends then some (quotes, cs.drop (within + 3))
        else do
          let (s, rest) ← linesRest mark basic n (cs.drop run)
          pure (quotes ++ s, rest)
      else if basic ∧ c = '\\' then
        match newline? (skipBlanks rest) with
        | some next =>
          linesRest mark basic n (skipSpace next)
        | none => do
          let (c, rest) ← escape rest
          let (s, rest) ← linesRest mark basic n rest
          pure (c :: s, rest)
      else match newline? cs with
        | some next => do
          let (s, rest) ← linesRest mark basic n next
          pure ('\n' :: s, rest)
        | none =>
          if isLineChar c then do
            let (s, rest) ← linesRest mark basic n rest
            pure (c :: s, rest)
          else none

/-- The text after one line end, if it starts with one. -/
def skipNewline (cs : List Char) : List Char := (newline? cs).getD cs

def shortString : Scan String
  | '\x22' :: rest => (basicRest (rest.length + 1) rest).map fun r => (String.ofList r.1, r.2)
  | '\x27' :: rest => (literalRest rest).map fun r => (String.ofList r.1, r.2)
  | _ => none

def string : Scan String := fun cs =>
  match cs with
  | '\x22' :: '\x22' :: '\x22' :: rest =>
    (linesRest '\x22' true (rest.length + 1) (skipNewline rest)).map
      fun r => (String.ofList r.1, r.2)
  | '\x27' :: '\x27' :: '\x27' :: rest =>
    (linesRest '\x27' false (rest.length + 1) (skipNewline rest)).map
      fun r => (String.ofList r.1, r.2)
  | _ => shortString cs

def isBareChar (c : Char) : Bool := c.isAlphanum || c = '-' || c = '_'

def keyPart : Scan String := fun cs =>
  match cs with
  | '\x22' :: _ => shortString cs
  | '\x27' :: _ => shortString cs
  | _ =>
    let part := cs.takeWhile isBareChar
    if part = [] then none else some (String.ofList part, cs.dropWhile isBareChar)

/-- The parts of a key, with dots and blanks between them; at most `n`. -/
def keyParts : Nat → Scan (List String)
  | 0, _ => none
  | n + 1, cs => do
    let (part, rest) ← keyPart (skipBlanks cs)
    match skipBlanks rest with
    | '.' :: rest => do
      let (parts, rest) ← keyParts n rest
      pure (part :: parts, rest)
    | rest => pure ([part], rest)

def key : Scan (List String) := keyParts (depthLimit - 1)

def digits (count : Nat) : Scan Nat := fun cs =>
  let ds := cs.take count
  if ds.length = count ∧ ds.all Char.isDigit then
    some (ds.foldl (fun a d => 10 * a + (d.toNat - 48)) 0, cs.drop count)
  else none

def bounded (count low high : Nat) : Scan Nat := fun cs => do
  let (n, rest) ← digits count cs
  if low ≤ n ∧ n ≤ high then pure (n, rest) else none

def mark (c : Char) (cs : List Char) : Option (List Char) :=
  match cs with
  | d :: rest => if d = c then some rest else none
  | [] => none

/-- The days of a month. -/
def monthDays (year month : Nat) : Nat :=
  if month = 2 then
    (if year % 4 = 0 ∧ (year % 100 ≠ 0 ∨ year % 400 = 0) then 29 else 28)
  else if month = 4 ∨ month = 6 ∨ month = 9 ∨ month = 11 then 30
  else 31

/-- The month and day of a date, after its year and a hyphen. -/
def dateRest (year : Nat) (cs : List Char) : Option (List Char) := do
  let (month, rest) ← bounded 2 1 12 cs
  let rest ← mark '-' rest
  let (day, rest) ← bounded 2 1 31 rest
  if day ≤ monthDays year month then some rest else none

/-- The minute and second of a time, after its hour and a colon. -/
def timeRest (cs : List Char) : Option (List Char) := do
  let (_, rest) ← bounded 2 0 59 cs
  let rest ← mark ':' rest
  let (_, rest) ← bounded 2 0 60 rest
  match rest with
  | '.' :: d :: more => if d.isDigit then some (more.dropWhile Char.isDigit) else some rest
  | _ => some rest

/-- The offset of a time from universal time, if one is given. -/
def offsetRest (cs : List Char) : Option (List Char) :=
  match cs with
  | 'Z' :: rest => some rest
  | 'z' :: rest => some rest
  | c :: rest =>
    if c = '+' ∨ c = '-' then do
      let (_, rest) ← bounded 2 0 23 rest
      let rest ← mark ':' rest
      let (_, rest) ← bounded 2 0 59 rest
      pure rest
    else some cs
  | [] => some []

/-- What follows the hour and colon that start a time. -/
def hourStart? (cs : List Char) : Option (List Char) := do
  let (_, rest) ← bounded 2 0 23 cs
  mark ':' rest

/-- The time of day after a date, if one is given. -/
def timeAfterDate (cs : List Char) : Option (List Char) :=
  match cs with
  | c :: rest =>
    if c = 'T' ∨ c = 't' ∨ c = ' ' then
      match hourStart? rest with
      | some rest => do
        let rest ← timeRest rest
        offsetRest rest
      | none => some cs
    else some cs
  | [] => some []

/-- Digits that satisfy `ok`, with single underscores between them. -/
def grouped (ok : Char → Bool) : Scan (List Char)
  | [] => none
  | c :: cs => if ok c then (go cs).map fun r => (c :: r.1, r.2) else none
where
  go : Scan (List Char)
    | [] => some ([], [])
    | c :: cs =>
      if ok c then (go cs).map fun r => (c :: r.1, r.2)
      else if c = '_' then
        (if (cs.head?.map ok).getD false then go cs else none)
      else some ([], c :: cs)

/-- The value of digits to a base. -/
def digitsValue (base : Nat) (ds : List Char) : Nat :=
  ds.foldl (fun a d => base * a + (hexValue? d).getD 0) 0

/-- An integer in hexadecimal, octal or binary, after its mark. -/
def radixInteger (base : Nat) (cs : List Char) : Option (List Char) := do
  let (ds, rest) ← grouped (fun c => (hexValue? c).any fun v => decide (v < base)) cs
  if digitsValue base ds < Nat.pow 2 63 then some rest else none

/-- The whole part of a number: no zero before another digit. -/
def wholePart : Scan (List Char) := fun cs =>
  match cs with
  | '0' :: rest => some (['0'], rest)
  | _ => grouped Char.isDigit cs

def exponent (cs : List Char) : Option (Option Int × List Char) :=
  match cs with
  | c :: rest =>
    if c = 'e' ∨ c = 'E' then
      let (negative, rest) := match rest with
        | '+' :: r => (false, r)
        | '-' :: r => (true, r)
        | r => (false, r)
      (grouped Char.isDigit rest).map fun r =>
        let n : Int := digitsValue 10 r.1
        (some (if negative then -n else n), r.2)
    else some (none, cs)
  | [] => some (none, [])

/-- Whether a decimal number is too large for double precision: it is not below halfway between the
largest such number and the next power of two, which has 309 digits. -/
def isTooLarge (ds : List Char) (places : Nat) (exp : Int) : Bool :=
  let significant := ds.dropWhile (· = '0')
  let n := digitsValue 10 significant
  let scale := exp - places
  let length := significant.length + scale
  let bound := Nat.pow 2 1024 - Nat.pow 2 970
  if significant = [] ∨ length < 300 then false
  else if 310 < length then true
  else if 0 ≤ scale then decide (bound ≤ n * Nat.pow 10 scale.toNat)
  else decide (bound * Nat.pow 10 (-scale).toNat ≤ n)

def unsignedNumber (negative : Bool) (cs : List Char) : Option (List Char) :=
  match cs with
  | 'i' :: 'n' :: 'f' :: rest => some rest
  | 'n' :: 'a' :: 'n' :: rest => some rest
  | _ => do
    let (whole, rest) ← wholePart cs
    match rest with
    | '.' :: rest => do
      let (fraction, rest) ← grouped Char.isDigit rest
      let (e, rest) ← exponent rest
      if !negative && isTooLarge (whole ++ fraction) fraction.length (e.getD 0) then none
      else pure rest
    | _ => do
      let (e, after) ← exponent rest
      match e with
      | some e => if !negative && isTooLarge whole 0 e then none else pure after
      | none =>
        let limit := Nat.pow 2 63 + (if negative then 1 else 0)
        if digitsValue 10 whole < limit then pure rest else none

/-- A number or a moment, and whether it is the latter. -/
def numberOrMoment (cs : List Char) : Option (Bool × List Char) :=
  match digits 4 cs with
  | some (year, '-' :: rest) => do
    let rest ← dateRest year rest
    let rest ← timeAfterDate rest
    pure (true, rest)
  | _ =>
    match hourStart? cs with
    | some rest => (timeRest rest).map fun r => (true, r)
    | none =>
      match cs with
      | '+' :: rest => (unsignedNumber false rest).map fun r => (false, r)
      | '-' :: rest => (unsignedNumber true rest).map fun r => (false, r)
      | '0' :: 'x' :: rest => (radixInteger 16 rest).map fun r => (false, r)
      | '0' :: 'o' :: rest => (radixInteger 8 rest).map fun r => (false, r)
      | '0' :: 'b' :: rest => (radixInteger 2 rest).map fun r => (false, r)
      | _ => (unsignedNumber false cs).map fun r => (false, r)

end ZipMount.Toml
