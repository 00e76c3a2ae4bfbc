import PawnNative.Toml.Number
import PawnNative.Toml.Text
import PawnNative.Toml.Value

/-! # TOML documents

    A document is a sequence of lines: a key with its value, a header, a comment
    or nothing. A reader that meets anything else refuses the document, and so
    does one that meets a key twice. Values may be nested in one another, but not
    without end.
-/

namespace PawnNative.Toml

/-- How deep values and keys may be nested. -/
def maxDepth : Nat := 80

/-- Whether a character may stand in a bare key. -/
def isKeyChar (c : Char) : Bool := c.isAlphanum || c == '_' || c == '-'

def keyPart (cs : List Char) : Option (List Char × List Char) :=
  match cs with
  | '"' :: _ | '\'' :: _ => lineText cs
  | _ =>
    let part := cs.takeWhile isKeyChar
    if part.isEmpty then none else some (part, cs.drop part.length)

/-- The parts of a key, with dots and blanks between them. -/
def keyParts : Nat → Scanner (List (List Char))
  | 0, _ => none
  | n + 1, cs => do
    let (part, cs) ← keyPart (skipBlank cs)
    match skipBlank cs with
    | '.' :: rest => do
      let (parts, rest) ← keyParts n rest
      return (part :: parts, rest)
    | rest => return ([part], rest)

/-- A key: the path to its table and its last part. -/
def key : Scanner (List (List Char) × List Char) := fun cs => do
  let (parts, rest) ← keyParts cs.length cs
  if maxDepth ≤ parts.length then none
  let last ← parts.getLast?
  return ((parts.dropLast, last), rest)

/-- The items of an array, after the opening bracket. -/
def arrayItems (value : Scanner Value) : Nat → Scanner (List Value)
  | 0, _ => none
  | n + 1, cs =>
    match skipLines cs with
    | ']' :: rest => some ([], rest)
    | cs => do
      let (v, cs) ← value cs
      match skipLines cs with
      | ',' :: rest => do
        let (vs, rest) ← arrayItems value n rest
        return (v :: vs, rest)
      | ']' :: rest => return ([v], rest)
      | _ => none

def keyValue (value : Scanner Value) : Scanner (List (List Char) × List Char × Value) :=
  fun cs => do
  let ((path, last), cs) ← key cs
  let cs ← exactly "=" cs
  let (v, cs) ← value (skipBlank cs)
  return ((path, last, v), cs)

/-- The entries of a table in braces, from its first key on. -/
def inlineEntries (value : Scanner Value) : Nat → Table → Scanner Table
  | 0, _, _ => none
  | n + 1, t, cs => do
    let ((path, last, v), cs) ← keyValue value cs
    let t ← Table.addDotted .inline t path last v
    match skipBlank cs with
    | ',' :: rest => inlineEntries value n t rest
    | '}' :: rest => return (t, rest)
    | _ => none

/-- A value, nested less than `depth` deep. -/
def value : (depth : Nat) → Scanner Value
  | 0, _ => none
  | depth + 1, cs =>
    match cs with
    | '"' :: _ | '\'' :: _ => (text cs).map fun (s, rest) => (.text s, rest)
    | '[' :: rest =>
      if depth = 0 then none
      else (arrayItems (value depth) (rest.length + 1) rest).map fun (vs, rest) => (.array vs, rest)
    | '{' :: rest =>
      if depth = 0 then none
      else match skipBlank rest with
        | '}' :: rest => some (.table .inline [], rest)
        | cs => (inlineEntries (value depth) cs.length [] cs).map fun (t, rest) =>
            (.table .inline t, rest)
    | 't' :: _ => (exactly "true" cs).map fun rest => (.bool true, rest)
    | 'f' :: _ => (exactly "false" cs).map fun rest => (.bool false, rest)
    | _ => number cs

/-- What has been read of a document. -/
structure Draft where
  root : Table := []
  /-- The header that the next keys belong to. -/
  header : List (List Char) := []

/-- A header, after its opening brackets. -/
def header (close : String) (start : Table → List (List Char) → List Char → Option Table)
    (d : Draft) (cs : List Char) : Option (Draft × List Char) := do
  let ((path, last), cs) ← key cs
  let cs ← exactly close cs
  let rest ← endLine? cs
  return ({ root := ← start d.root path last, header := path ++ [last] }, rest)

def line (d : Draft) (cs : List Char) : Option (Draft × List Char) :=
  match cs with
  | '#' :: _ => (endLine? cs).map fun rest => (d, rest)
  | '[' :: '[' :: rest => header "]]" Table.openNext d rest
  | '[' :: rest => header "]" Table.openHeader d rest
  | _ =>
    match newline? cs with
    | some rest => some (d, rest)
    | none => do
      let ((path, last, v), cs) ← keyValue (value maxDepth) cs
      let rest ← endLine? cs
      return ({ d with root := ← d.root.addUnder d.header path last v }, rest)

def lines : Nat → Draft → List Char → Option Table
  | 0, _, _ => none
  | n + 1, d, cs =>
    match skipBlank cs with
    | [] => some d.root
    | cs => do
      let (d, rest) ← line d cs
      lines n d rest

/-- Reads a document; a byte order mark at its start is skipped. -/
def parse? (s : String) : Option Table :=
  let cs := match s.toList with
    | '\ufeff' :: rest => rest
    | cs => cs
  lines (cs.length + 1) {} cs

end PawnNative.Toml
