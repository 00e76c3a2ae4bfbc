/-! # TOML values

    A TOML document is a table of values by key. Tables are open or closed by the
    way they were written: a table under a header may be reached through further
    headers, a table that dotted keys made may be extended by dotted keys, and a
    table written in braces is complete. `Table.update` follows a path of keys
    under these rules.
-/

namespace PawnNative.Toml

/-- How a table came to be. -/
inductive TableKind where
  /-- Written in braces. -/
  | inline
  /-- Under a header of its own. -/
  | header
  /-- Only named on the way to another header. -/
  | implicit
  /-- Made by a dotted key. -/
  | dotted
  deriving DecidableEq, Repr

/-- A value of a document. -/
inductive Value where
  | bool (b : Bool)
  | integer (n : Int)
  /-- A float, as it is written. -/
  | float (text : List Char)
  | text (s : List Char)
  /-- A date, a time or both, as it is written. -/
  | datetime (text : List Char)
  | array (items : List Value)
  | table (kind : TableKind) (entries : List (List Char × Value))
  /-- The tables under headers in double brackets, in order. -/
  | tables (items : List (List (List Char × Value)))

/-- The entries of a table. -/
abbrev Table := List (List Char × Value)

namespace Table

/-- Replaces the value of a key, or adds it at the end. -/
def put (t : Table) (key : List Char) (v : Value) : Table :=
  match t with
  | [] => [(key, v)]
  | e :: rest => if e.1 = key then (key, v) :: rest else e :: put rest key v

/-- Changes the table at the end of a path of keys. Missing tables on the way are made with
    kind `fresh`. A dotted key (`dotted`) does not enter a table that has a header of its own;
    nothing enters a table in braces or a value that is no table. The change is told the kind
    of the table it is applied to; of the table that the path starts from this is `kind`. -/
def update (dotted : Bool) (fresh : TableKind) (change : TableKind → Table → Option Table) :
    (kind : TableKind) → (path : List (List Char)) → Table → Option Table
  | kind, [], t => change kind t
  | _, key :: path, t =>
    match t.lookup key with
    | none => do
      let child ← update dotted fresh change fresh path []
      return put t key (.table fresh child)
    | some (.table .inline _) => none
    | some (.table .header child) =>
      if dotted then none
      else do return put t key (.table .header (← update dotted fresh change .header path child))
    | some (.table kind child) => do
      return put t key (.table kind (← update dotted fresh change kind path child))
    | some (.tables items) => do
      let last ← items.getLast?
      let child ← update dotted fresh change .header path last
      return put t key (.tables (items.dropLast ++ [child]))
    | some _ => none

/-- Adds a value under a key that must be new. -/
def addNew (t : Table) (key : List Char) (v : Value) : Option Table :=
  match t.lookup key with
  | some _ => none
  | none => some (put t key v)

/-- Adds a value under a dotted key. The last table on the way must be one that dotted keys
    made, unless the key has a single part. -/
def addDotted (kind : TableKind) (t : Table) (path : List (List Char)) (key : List Char)
    (v : Value) : Option Table :=
  t.update true .dotted
    (fun kind t => if !path.isEmpty && kind != .dotted then none else t.addNew key v) kind path

/-- Opens the table of a header. It must be new, or only named on the way before. -/
def openHeader (t : Table) (path : List (List Char)) (key : List Char) : Option Table :=
  t.update false .implicit
    (fun _ t =>
      match t.lookup key with
      | none => some (put t key (.table .header []))
      | some (.table .implicit child) => some (put t key (.table .header child))
      | some _ => none) .header path

/-- Opens the next table of a header in double brackets. -/
def openNext (t : Table) (path : List (List Char)) (key : List Char) : Option Table :=
  t.update false .implicit
    (fun _ t =>
      match t.lookup key with
      | none => some (put t key (.tables [[]]))
      | some (.tables items) => some (put t key (.tables (items ++ [[]])))
      | some _ => none) .header path

/-- Adds a value under a dotted key of the table that a header opened. -/
def addUnder (t : Table) (header path : List (List Char)) (key : List Char) (v : Value) :
    Option Table :=
  t.update false .implicit (fun kind t => addDotted kind t path key v) .header header

end Table

end PawnNative.Toml
