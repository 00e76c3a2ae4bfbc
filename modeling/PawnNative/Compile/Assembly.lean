import PawnNative.Code.LabelTable
import PawnNative.Compile.Stubs

/-! # Assembling templates

    An assembly puts the lines of templates into a code buffer. Targets become
    labels when they are first mentioned: addresses of the bytecode through the
    label table, stubs and the places of a template through lists of their own.
    The stubs of faults are emitted at the end, one for each fault that was
    mentioned and in the order of first mention.
-/

namespace PawnNative

open X64

/-- Code under construction, with the labels of its targets. -/
structure Assembly where
  buffer : CodeBuffer := {}
  labels : LabelTable := {}
  /-- The stubs that were mentioned, in order of first mention. -/
  stubs : List (Stub × Label) := []
  /-- The places of the template that is being assembled. -/
  marks : List (Nat × Label) := []

namespace Assembly

/-- Offset of the next byte. -/
def offset (a : Assembly) : Nat := a.buffer.offset

def stub (a : Assembly) (s : Stub) : Label × Assembly :=
  match a.stubs.lookup s with
  | some l => (l, a)
  | none =>
    let (l, buffer) := a.buffer.newLabel
    (l, { a with buffer, stubs := a.stubs ++ [(s, l)] })

/-- The label of a place of the template. -/
def mark (a : Assembly) (n : Nat) : Label × Assembly :=
  match a.marks.lookup n with
  | some l => (l, a)
  | none =>
    let (l, buffer) := a.buffer.newLabel
    (l, { a with buffer, marks := (n, l) :: a.marks })

/-- The label of a bytecode address that the instruction at `referrer` mentions. -/
def address (a : Assembly) (referrer : Cell) (k : LabelKey) : Label × Assembly :=
  let (l, labels, buffer) := a.labels.get a.buffer k referrer
  (l, { a with buffer, labels })

/-- The label of a target that the instruction at `referrer` mentions. -/
def label (a : Assembly) (referrer : Cell) : Target → Label × Assembly
  | .code t => a.address referrer ⟨t, .instr⟩
  | .cases t => a.address referrer ⟨t, .caseTable⟩
  | .stub s => a.stub s
  | .mark n => a.mark n

/-- Binds the label of a bytecode address to the next byte. -/
def bindAddress (a : Assembly) (k : LabelKey) : Assembly :=
  let (_, labels, buffer) := a.labels.bind a.buffer k
  { a with buffer, labels }

/-- Binds a target to the next byte. -/
def place (a : Assembly) : Target → Assembly
  | .code t => a.bindAddress ⟨t, .instr⟩
  | .cases t => a.bindAddress ⟨t, .caseTable⟩
  | .stub s =>
    let (l, a) := a.stub s
    { a with buffer := a.buffer.bind l }
  | .mark n =>
    let (l, a) := a.mark n
    { a with buffer := a.buffer.bind l }

/-- Appends a line of the instruction at `referrer`. -/
def line (a : Assembly) (referrer : Cell) : Line → Assembly
  | .op i => { a with buffer := a.buffer.instr i }
  | .jmp t =>
    let (l, a) := a.label referrer t
    { a with buffer := a.buffer.jmp l }
  | .jcc c t =>
    let (l, a) := a.label referrer t
    { a with buffer := a.buffer.jcc c l }
  | .call t =>
    let (l, a) := a.label referrer t
    { a with buffer := a.buffer.call l }
  | .place t => a.place t

/-- Appends a template of the instruction at `referrer`. -/
def lines (a : Assembly) (referrer : Cell) (ls : List Line) : Assembly :=
  ls.foldl (fun a l => a.line referrer l) { a with marks := [] }

/-- The faults whose stubs were mentioned, in order of first mention. -/
def faults (a : Assembly) : List Fault :=
  a.stubs.filterMap fun
    | (.fault f, _) => some f
    | _ => none

end Assembly

end PawnNative
