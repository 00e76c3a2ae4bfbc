import PawnNative.Image.Builder

/-! # Assembly sources

    An image can be written down with names for its code addresses. A source is
    such a text after reading: data, imports, instructions with named operands,
    public functions and the entry point. A name gets its label when it is first
    mentioned, in the order of the source.
-/

namespace PawnNative

namespace Source

inductive Operand where
  | value (c : Cell)
  /-- The address of a name. -/
  | label (name : String)
  /-- The distance of a name from the next instruction. -/
  | relative (name : String)
  deriving DecidableEq, Repr

/-- An item of the code. -/
inductive Item where
  /-- Gives a name to the next address; the last one counts. -/
  | label (name : String)
  | cells (values : List Cell)
  | caseTable (default : String) (records : List (Cell × String))
  /-- An instruction with any number of operands. -/
  | instr (op : Opcode) (operands : List Operand)
  deriving DecidableEq, Repr

/-- An item of the data segment. -/
inductive Datum where
  | cells (values : List Cell)
  | text (s : String)
  deriving DecidableEq, Repr

/-- A builder with the names that were mentioned. -/
structure Names where
  builder : Builder := {}
  labels : List (String × CodeLabel) := []

namespace Names

/-- The label of a name. -/
def label (n : Names) (name : String) : CodeLabel × Names :=
  match n.labels.lookup name with
  | some l => (l, n)
  | none =>
    let (l, builder) := n.builder.newLabel
    (l, { builder, labels := (name, l) :: n.labels })

/-- An operand with its label. -/
def operand (n : Names) : Operand → Arg × Names
  | .value c => (.value c, n)
  | .label name =>
    let (l, n) := n.label name
    (.label l, n)
  | .relative name =>
    let (l, n) := n.label name
    (.relative l, n)

/-- Operands with their labels. -/
def operands (n : Names) : List Operand → List Arg × Names
  | [] => ([], n)
  | o :: rest =>
    let (a, n) := n.operand o
    let (as, n) := n.operands rest
    (a :: as, n)

/-- The records of a case table with their labels. -/
def records (n : Names) : List (Cell × String) → List (Cell × CodeLabel) × Names
  | [] => ([], n)
  | (value, name) :: rest =>
    let (l, n) := n.label name
    let (rs, n) := n.records rest
    ((value, l) :: rs, n)

/-- Appends an item of the code. -/
def item (n : Names) : Item → Names
  | .label name =>
    let (l, n) := n.label name
    { n with builder := n.builder.bind l }
  | .cells values => { n with builder := n.builder.cells values }
  | .caseTable default records =>
    let (d, n) := n.label default
    let (rs, n) := n.records records
    { n with builder := n.builder.caseTable d rs }
  | .instr op os =>
    let (as, n) := n.operands os
    { n with builder := n.builder.emit op as }

/-- Appends the code; gives the address of each item. -/
def code (n : Names) : List Item → List Cell × Names
  | [] => ([], n)
  | i :: rest =>
    let here := n.builder.here
    let (addresses, n) := (n.item i).code rest
    (here :: addresses, n)

def addPublic (n : Names) (name entry : String) : Names :=
  let (l, n) := n.label entry
  { n with builder := n.builder.addPublic name l }

def setMain (n : Names) (entry : String) : Names :=
  let (l, n) := n.label entry
  { n with builder := n.builder.setMain l }

end Names

/-- Appends an item of the data segment. -/
def addDatum (b : Builder) : Datum → Builder
  | .cells values => b.dataCells values
  | .text s => b.dataText s

/-- Appends the data; gives the address of each item. -/
def addData (b : Builder) : List Datum → List Cell × Builder
  | [] => ([], b)
  | d :: rest =>
    let here := b.dataHere
    let (addresses, b) := addData (addDatum b d) rest
    (here :: addresses, b)

end Source

/-- An image written down with names. -/
structure Source where
  data : List Source.Datum := []
  natives : List String := []
  code : List Source.Item := []
  /-- Names of public functions and of their code addresses. -/
  publics : List (String × String) := []
  main : Option String := none
  /-- Bytes for heap and stack, if given. -/
  stackSize : Option Nat := none

structure Source.Assembled where
  builder : Builder
  /-- The address of each item of the code. -/
  code : List Cell
  /-- The address of each item of the data. -/
  data : List Cell

def Source.assemble (s : Source) : Source.Assembled :=
  let (dataAddresses, b) := Source.addData {} s.data
  let b := s.natives.foldl Builder.addNative b
  let (code, n) := ({ builder := b } : Source.Names).code s.code
  let n := s.publics.foldl (fun n (name, entry) => n.addPublic name entry) n
  let n := match s.main with
    | some entry => n.setMain entry
    | none => n
  let builder := match s.stackSize with
    | some size => { n.builder with stackSize := size }
    | none => n.builder
  { builder, code, data := dataAddresses }

end PawnNative
