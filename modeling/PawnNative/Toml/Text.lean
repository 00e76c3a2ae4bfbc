import PawnNative.Text.Hex
import PawnNative.Toml.Scan

/-! # Strings in TOML

    A string stands in double quotes, with escapes, or in single quotes, without.
    Both forms have a version in three quotes that may run over several lines: a
    line end right after the opening quotes is dropped, a backslash at the end of
    a line drops the blanks and line ends that follow, and up to two quotes may
    stand before the closing ones.
-/

namespace PawnNative.Toml

/-- The character of a short escape. -/
def shortEscape? : Char → Option Char
  | 'b' => some '\x08'
  | 't' => some '\t'
  | 'n' => some '\n'
  | 'f' => some '\x0c'
  | 'r' => some '\r'
  | '"' => some '"'
  | '\\' => some '\\'
  | _ => none

/-- The character with a code point in hexadecimal digits. -/
def codePoint? (ds : List Char) : Option Char := do
  let values ← ds.mapM Hex.digitValue?
  let n := values.foldl (fun n d => n * 16 + d) 0
  if n.isValidChar then some (Char.ofNat n) else none

/-- The character of an escape, after the backslash. -/
def escape : Scanner Char
  | 'u' :: rest =>
    if 4 ≤ rest.length then (codePoint? (rest.take 4)).map fun c => (c, rest.drop 4) else none
  | 'U' :: rest =>
    if 8 ≤ rest.length then (codePoint? (rest.take 8)).map fun c => (c, rest.drop 8) else none
  | c :: rest => (shortEscape? c).map fun c => (c, rest)
  | [] => none

/-- Puts a character in front of what a scanner read. -/
def consText (c : Char) (r : Option (List Char × List Char)) : Option (List Char × List Char) :=
  r.map fun (cs, rest) => (c :: cs, rest)

/-- A string in double quotes, after the opening quote. -/
def basicBody : Nat → Scanner (List Char)
  | _, '"' :: rest => some ([], rest)
  | n + 1, '\\' :: rest => do
    let (c, rest) ← escape rest
    consText c (basicBody n rest)
  | n + 1, c :: rest => if isPlain c then consText c (basicBody n rest) else none
  | _, _ => none

/-- A string in single quotes, after the opening quote. -/
def literalBody : Scanner (List Char)
  | [] => none
  | c :: rest =>
    if c = '\'' then some ([], rest)
    else if isPlain c then consText c (literalBody rest)
    else none

/-- The quotes that end a string in three quotes: up to two of the string itself come first. -/
def closing (q : Char) (cs : List Char) : Option (List Char × List Char) :=
  let count := (cs.takeWhile (· == q)).length
  if count < 3 then none
  else
    let own := min (count - 3) 2
    some (List.replicate own q, cs.drop (own + 3))

/-- The text after a backslash that ends a line: blanks, a line end, then blanks and line ends. -/
def continued (cs : List Char) : Option (List Char) :=
  (newline? (skipBlank cs)).map fun rest => go rest.length rest
where
  go : Nat → List Char → List Char
    | 0, cs => cs
    | n + 1, cs =>
      let cs := skipBlank cs
      match newline? cs with
      | some rest => go n rest
      | none => cs

/-- A string in three double quotes, after the opening ones. -/
def multiBasicBody : Nat → Scanner (List Char)
  | 0, _ => none
  | n + 1, cs =>
    match closing '"' cs with
    | some r => some r
    | none =>
      match newline? cs with
      | some rest => consText '\n' (multiBasicBody n rest)
      | none =>
        match cs with
        | '\\' :: rest =>
          match continued rest with
          | some rest => multiBasicBody n rest
          | none => do
            let (c, rest) ← escape rest
            consText c (multiBasicBody n rest)
        | c :: rest => if isPlain c then consText c (multiBasicBody n rest) else none
        | [] => none

def multiLiteralBody : Nat → Scanner (List Char)
  | 0, _ => none
  | n + 1, cs =>
    match closing '\'' cs with
    | some r => some r
    | none =>
      match newline? cs with
      | some rest => consText '\n' (multiLiteralBody n rest)
      | none =>
        match cs with
        | c :: rest => if isPlain c then consText c (multiLiteralBody n rest) else none
        | [] => none

/-- A text without a line end right at its start. -/
def dropNewline (cs : List Char) : List Char := (newline? cs).getD cs

/-- A string on one line. -/
def lineText : Scanner (List Char)
  | '"' :: rest => basicBody rest.length rest
  | '\'' :: rest => literalBody rest
  | _ => none

def text : Scanner (List Char)
  | '"' :: '"' :: '"' :: rest => multiBasicBody (rest.length + 1) (dropNewline rest)
  | '\'' :: '\'' :: '\'' :: rest => multiLiteralBody (rest.length + 1) (dropNewline rest)
  | cs => lineText cs

end PawnNative.Toml
