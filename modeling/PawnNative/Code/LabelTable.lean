import PawnNative.Code.Buffer
import Std.Data.TreeMap.Basic

/-! # Label tables

    While code is compiled, branches name bytecode addresses. The table gives
    each address a label of the buffer when it is first mentioned, by a branch or
    by the instruction at the address itself. One address can have two labels:
    the start of its instruction and, for a case table, the start of the dispatch.
-/

namespace PawnNative

/-- What a label of a bytecode address stands for. -/
inductive LabelKind where
  /-- The start of the instruction. -/
  | instr
  /-- The dispatch of a case table. -/
  | caseTable
  deriving DecidableEq, Repr

/-- The kinds in order. -/
def LabelKind.rank : LabelKind → Nat
  | .instr => 0
  | .caseTable => 1

/-- What a label is known by. -/
structure LabelKey where
  address : Cell
  kind : LabelKind
  deriving DecidableEq, Repr

/-- Keys are ordered by address, then by kind. -/
def LabelKey.order (a b : LabelKey) : Ordering :=
  (compare a.address.toInt b.address.toInt).then (compare a.kind.rank b.kind.rank)

/-- What the table knows of a key. -/
structure LabelEntry where
  label : Label
  /-- Whether the address was reached. -/
  bound : Bool
  /-- The instruction that mentioned the key first, unless that was the binding. -/
  referrer : Option Cell
  deriving DecidableEq, Repr

/-- The labels of bytecode addresses. -/
structure LabelTable where
  entries : Std.TreeMap LabelKey LabelEntry LabelKey.order := ∅

namespace LabelTable

def len (t : LabelTable) : Nat := t.entries.size

/-- The entry of a key; a new one if this is its first mention. -/
def entry (t : LabelTable) (b : CodeBuffer) (k : LabelKey) (referrer : Option Cell) :
    LabelEntry × CodeBuffer :=
  match t.entries[k]? with
  | some e => (e, b)
  | none =>
    let (label, b) := b.newLabel
    ({ label, bound := false, referrer }, b)

/-- The label of a key that an instruction refers to. -/
def get (t : LabelTable) (b : CodeBuffer) (k : LabelKey) (referrer : Cell) :
    Label × LabelTable × CodeBuffer :=
  let (e, b) := t.entry b k (some referrer)
  (e.label, ⟨t.entries.insert k e⟩, b)

/-- Binds the label of a key to the next byte of the buffer. -/
def bind (t : LabelTable) (b : CodeBuffer) (k : LabelKey) : Label × LabelTable × CodeBuffer :=
  let (e, b) := t.entry b k none
  (e.label, ⟨t.entries.insert k { e with bound := true }⟩, b.bind e.label)

/-- The keys that were mentioned and never bound, in order, each with its first referrer. -/
def unbound (t : LabelTable) : List (LabelKey × Option Cell) :=
  (t.entries.toList.filter fun e => !e.2.bound).map fun e => (e.1, e.2.referrer)

end LabelTable

end PawnNative
