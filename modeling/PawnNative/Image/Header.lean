import PawnNative.Block
import PawnNative.Text.Hex

/-! # Image headers

    The first 56 bytes of an image say where its sections lie: the tables of
    public functions and of imported natives, the names, the code, the data, and
    the room for heap and stack. Offsets count from the start of the image.

    `Header.parse` reads the header and refuses an image whose header does not
    describe a block with its sections in order. The checks are made in a fixed
    order and the first one that fails is the answer.
-/

namespace PawnNative

/-- Why an image is refused. -/
inductive LoadError where
  /-- Fewer bytes than the header, or than the size the header gives. -/
  | truncated (length : Nat)
  | badMagic (magic : Half)
  | version (file machine : Byte)
  | compact
  | recordSize (size : Half)
  | sectionOrder
  | tableSize
  | codeAlignment
  | noStack
  deriving DecidableEq, Repr

def LoadError.message : LoadError → String
  | .truncated n => "image is truncated (" ++ Nat.repr n ++ " bytes)"
  | .badMagic m => "bad magic number 0x" ++ Hex.padded 4 m.toNat
  | .version f m =>
    "unsupported file version " ++ Nat.repr f.toNat ++ " (amx version " ++ Nat.repr m.toNat ++ ")"
  | .compact => "compact encoding is not supported"
  | .recordSize n => "unexpected table record size " ++ Int.repr n.toInt
  | .sectionOrder => "invalid layout: sections are out of order"
  | .tableSize => "invalid layout: symbol table size is not a multiple of the record size"
  | .codeAlignment => "invalid layout: code segment is not cell aligned"
  | .noStack => "invalid layout: no room for a stack"

structure Header where
  /-- Bytes of the image that are stored: header, tables, code and data. -/
  size : Cell
  magic : Half
  fileVersion : Byte
  machineVersion : Byte
  flags : Half
  /-- Bytes per symbol table record. -/
  recordSize : Half
  /-- Start of the code segment. -/
  cod : Cell
  /-- Start of the data segment, which is data address 0. -/
  dat : Cell
  /-- Start of the heap. -/
  hea : Cell
  /-- End of the block, where the stack starts. -/
  stp : Cell
  /-- Code address of the entry point, or -1. -/
  cip : Cell
  publics : Cell
  natives : Cell
  libraries : Cell
  pubvars : Cell
  tags : Cell
  nametable : Cell
  deriving DecidableEq, Repr

namespace Header

def length : Nat := 56

/-- Bytes of a record in a symbol table. -/
def symbolLength : Nat := 8

/-- The mark of an image with 32-bit cells. -/
def magicNumber : Half := 0xF1E0

/-- The oldest and the newest file format that is understood. -/
def minFileVersion : Byte := 7

@[inherit_doc minFileVersion]
def maxFileVersion : Byte := 8

/-- The newest machine an image may ask for. -/
def maxMachineVersion : Byte := 8

/-- The flag of an image whose code is compressed. -/
def compactFlag : Half := 4

/-- The fields at their places; `none` when there are fewer than 56 bytes. -/
def read? (b : Block) : Option Header := do
  return {
    size := ← b.cell? 0
    magic := ← b.half? 4
    fileVersion := ← b.byte? 6
    machineVersion := ← b.byte? 7
    flags := ← b.half? 8
    recordSize := ← b.half? 10
    cod := ← b.cell? 12
    dat := ← b.cell? 16
    hea := ← b.cell? 20
    stp := ← b.cell? 24
    cip := ← b.cell? 28
    publics := ← b.cell? 32
    natives := ← b.cell? 36
    libraries := ← b.cell? 40
    pubvars := ← b.cell? 44
    tags := ← b.cell? 48
    nametable := ← b.cell? 52 }

def bytes (h : Header) : List Byte :=
  h.size.bytes ++ h.magic.bytes ++ [h.fileVersion, h.machineVersion] ++ h.flags.bytes ++
  h.recordSize.bytes ++ h.cod.bytes ++ h.dat.bytes ++ h.hea.bytes ++ h.stp.bytes ++ h.cip.bytes ++
  h.publics.bytes ++ h.natives.bytes ++ h.libraries.bytes ++ h.pubvars.bytes ++ h.tags.bytes ++
  h.nametable.bytes

/-- The offsets that have to be in order, from the end of the header to the end of the block. -/
def boundaries (h : Header) : List Int :=
  [(length : Int), h.publics.toInt, h.natives.toInt, h.libraries.toInt, h.pubvars.toInt,
   h.tags.toInt, h.nametable.toInt, h.cod.toInt, h.dat.toInt, h.hea.toInt, h.stp.toInt]

/-- Whether each number of a list is at most the next one. -/
def ascending : List Int → Bool
  | a :: b :: rest => decide (a ≤ b) && ascending (b :: rest)
  | _ => true

/-- The first reason to refuse an image of `len` bytes with this header. -/
def check (h : Header) (len : Nat) : Except LoadError Unit :=
  if h.magic ≠ magicNumber then .error (.badMagic h.magic)
  else if h.fileVersion < minFileVersion ∨ maxFileVersion < h.fileVersion
      ∨ maxMachineVersion < h.machineVersion then
    .error (.version h.fileVersion h.machineVersion)
  else if h.flags &&& compactFlag ≠ 0 then .error .compact
  else if h.recordSize.toInt ≠ symbolLength then .error (.recordSize h.recordSize)
  else if ¬ ascending h.boundaries then .error .sectionOrder
  else if h.size.toInt < h.hea.toInt ∨ (len : Int) < h.size.toInt then .error (.truncated len)
  else if (h.natives.toInt - h.publics.toInt) % symbolLength ≠ 0
      ∨ (h.libraries.toInt - h.natives.toInt) % symbolLength ≠ 0 then .error .tableSize
  else if (h.dat.toInt - h.cod.toInt) % Cell.width ≠ 0 then .error .codeAlignment
  else if h.stp.toInt - h.hea.toInt < 2 * Cell.width then .error .noStack
  else .ok ()

/-- Reads and checks the header at the start of an image. -/
def parse (b : Block) : Except LoadError Header :=
  if b.size < length then .error (.truncated b.size)
  else match read? b with
    | none => .error (.truncated b.size)
    | some h => (h.check b.size).map fun _ => h

def codeSize (h : Header) : Nat := (h.dat.toInt - h.cod.toInt).toNat

/-- Bytes of the data segment with heap and stack. -/
def dataSize (h : Header) : Nat := (h.stp.toInt - h.dat.toInt).toNat

end Header

end PawnNative
