import PawnNative.Image.Header
import PawnNative.Text

/-! # Symbol tables

    The public functions and the imported natives of an image are listed in two
    tables of eight-byte records: an address and the offset of a name. The tables
    are read in place, so a change of the block shows in the next look-up.
-/

namespace PawnNative

/-- A record of a symbol table. -/
structure Symbol where
  /-- Code address of a public function, or handle of a native (0 while unbound). -/
  address : Cell
  nameOffset : Cell
  deriving DecidableEq, Repr

/-- A run of symbol records inside a block. -/
structure SymbolTable where
  /-- Offset of the first record. -/
  offset : Nat
  len : Nat
  deriving DecidableEq, Repr

/-- The bytes from an offset up to, and without, the next zero byte. -/
def Block.nulTerminated (b : Block) (start : Nat) : Option (List Byte) :=
  go (b.size - start) start
where
  go : Nat → Nat → Option (List Byte)
    | 0, _ => none
    | n + 1, i =>
      match b.byte? i with
      | none => none
      | some c => if c = 0 then some [] else (go n (i + 1)).map (c :: ·)

namespace SymbolTable

/-- The table between two offsets. -/
def between (start stop : Cell) : SymbolTable :=
  ⟨start.toNat, (stop.toInt - start.toInt).toNat / Header.symbolLength⟩

/-- Where a record lies in the block. -/
def recordOffset? (t : SymbolTable) (index : Nat) : Option Nat :=
  if index < t.len then some (t.offset + index * Header.symbolLength) else none

/-- A record of the table. -/
def get? (t : SymbolTable) (b : Block) (index : Nat) : Option Symbol := do
  let o ← t.recordOffset? index
  return ⟨← b.cell? o, ← b.cell? (o + Cell.width)⟩

/-- The name of a record: the text up to the next zero byte. -/
def name? (t : SymbolTable) (b : Block) (index : Nat) : Option String := do
  let s ← t.get? b index
  Text.ofUtf8? (← b.nulTerminated s.nameOffset.toNat)

/-- The first record with this name. -/
def find? (t : SymbolTable) (b : Block) (name : String) : Option Nat :=
  (List.range t.len).find? fun i => t.name? b i == some name

/-- The first record with this address. -/
def indexOf? (t : SymbolTable) (b : Block) (address : Cell) : Option Nat :=
  (List.range t.len).find? fun i => (t.get? b i).map (·.address) == some address

end SymbolTable

namespace Header

/-- The public functions. -/
def publicTable (h : Header) : SymbolTable := .between h.publics h.natives

/-- The imported natives. -/
def nativeTable (h : Header) : SymbolTable := .between h.natives h.libraries

end Header

end PawnNative
