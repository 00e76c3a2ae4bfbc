import Mathlib.Tactic.Common
import PawnNative.Proofs.Sections
import PawnNative.Proofs.Transcripts

/-! # Built images

    A builder lays an image out from the front: header, records, names, padding, code
    and data, each at an offset that counts what stands before it. Loading goes the
    other way and reads every part at an offset of the header. `Contents` names the
    parts; that each of them stands where it is looked for is said once, by what is
    left of the image behind an offset, and code, data and tables are read off from
    that.
-/

namespace PawnNative

/-! ## Section 1: Resolving labels -/

namespace Builder

variable {b : Builder}

/-- The address of a label, zero while it is not bound. -/
def addressD (b : Builder) (l : CodeLabel) : Cell := (b.address? l).getD 0

/-- The first of these labels that is not bound. -/
def unbound? (b : Builder) (ls : List CodeLabel) : Option CodeLabel :=
  ls.find? fun l => (b.address? l).isNone

/-- A result, unless there is a label that is not bound. -/
def orUnbound {α : Type} (l : Option CodeLabel) (v : α) : Except BuildError α :=
  l.elim (.ok v) fun l => .error (.unboundLabel l)

theorem orUnbound_bind {α β : Type} (l₁ l₂ : Option CodeLabel) (v : α) (f : α → Except BuildError β)
    (w : β) (hf : f v = orUnbound l₂ w) : (orUnbound l₁ v >>= f) = orUnbound (l₁.or l₂) w := by
  cases l₁ with
  | none => exact hf
  | some l => rfl

theorem orUnbound_map {α β : Type} (l : Option CodeLabel) (v : α) (g : α → β) :
    (orUnbound l v >>= fun v => pure (g v)) = orUnbound l (g v) := by
  cases l with
  | none => rfl
  | some l => rfl

theorem resolve_eq (b : Builder) (l : CodeLabel) :
    b.resolve l = orUnbound (b.unbound? [l]) (b.addressD l) := by
  unfold resolve unbound? addressD address?
  rw [List.find?_singleton]
  cases b.labels[l.index]? with
  | none => rfl
  | some a =>
    cases a with
    | none => rfl
    | some a => rfl

theorem unbound?_cons (l : CodeLabel) (ls : List CodeLabel) :
    b.unbound? (l :: ls) = (b.unbound? [l]).or (b.unbound? ls) := by
  rw [unbound?, ← List.singleton_append, List.find?_append]
  rfl

theorem resolvedCode_eq (b : Builder) : b.resolvedCode =
    orUnbound (b.unbound? (b.fixups.toList.map (·.label))) (b.filled b.addressD) := by
  unfold resolvedCode filled
  generalize b.code = code
  induction b.fixups.toList generalizing code with
  | nil => rfl
  | cons f fs ih =>
    rw [List.foldlM_cons, List.map_cons, unbound?_cons, resolve_eq, bind_assoc]
    exact orUnbound_bind _ _ _ _ _ (ih _)

/-- The public functions with the addresses of their labels. -/
def declared (b : Builder) : List (String × Cell) :=
  b.publics.toList.map fun p => (p.1, b.addressD p.2)

theorem sortedPublics_eq (b : Builder) : b.sortedPublics =
    orUnbound (b.unbound? (b.publics.toList.map (·.2)))
      (b.declared.mergeSort fun p q => decide (p.2.toInt ≤ q.2.toInt)) := by
  have hmapM : ∀ ps : List (String × CodeLabel),
      (ps.mapM fun p => do return (p.1, ← b.resolve p.2) : Except BuildError _) =
        orUnbound (b.unbound? (ps.map (·.2))) (ps.map fun p => (p.1, b.addressD p.2)) := by
    intro ps
    induction ps with
    | nil => rfl
    | cons p ps ih =>
      rw [List.mapM_cons, List.map_cons, unbound?_cons, resolve_eq, bind_assoc]
      refine orUnbound_bind _ _ _ _ _ ?_
      rw [pure_bind, ih]
      exact orUnbound_map ..
  exact (congrArg (· >>= _) (hmapM _)).trans (orUnbound_map ..)

theorem entry_eq (b : Builder) :
    b.entry = orUnbound (b.unbound? b.main.toList) (b.main.elim (-1) b.addressD) := by
  unfold entry
  cases b.main with
  | none => rfl
  | some l => exact resolve_eq b l

end Builder

/-! ## Section 2: The parts of an image -/

/-- What an image holds. -/
structure Contents where
  code : List Cell
  data : List Cell
  publics : List (String × Cell)
  natives : List String
  /-- The handle in the record of a native, zero while it is not bound. -/
  handle : String → Cell := fun _ => 0
  entry : Cell
  stackSize : Nat

namespace Contents

variable (c : Contents)

/-- The offset of the records of natives. -/
def nativesAt : Nat := Header.length + c.publics.length * Header.symbolLength

def namesAt : Nat := c.nativesAt + c.natives.length * Header.symbolLength

def names : List String := c.publics.map (·.1) ++ c.natives

def addresses : List Cell := c.publics.map (·.2) ++ c.natives.map c.handle

def table : List Byte := Builder.nameTable c.names

def cod : Nat := Builder.alignUp (c.namesAt + c.table.length)

def dat : Nat := c.cod + c.code.length * Cell.width

def hea : Nat := c.dat + c.data.length * Cell.width

def stp : Nat := c.hea + c.stackSize

def header : Header where
  size := BitVec.ofNat 32 c.hea
  magic := Header.magicNumber
  fileVersion := Header.maxFileVersion
  machineVersion := Header.maxMachineVersion
  flags := 0
  recordSize := BitVec.ofNat 16 Header.symbolLength
  cod := BitVec.ofNat 32 c.cod
  dat := BitVec.ofNat 32 c.dat
  hea := BitVec.ofNat 32 c.hea
  stp := BitVec.ofNat 32 c.stp
  cip := c.entry
  publics := BitVec.ofNat 32 Header.length
  natives := BitVec.ofNat 32 c.nativesAt
  libraries := BitVec.ofNat 32 c.namesAt
  pubvars := BitVec.ofNat 32 c.namesAt
  tags := BitVec.ofNat 32 c.namesAt
  nametable := BitVec.ofNat 32 c.namesAt

def records : List (Cell × Nat) := c.addresses.zip (Builder.nameOffsets (c.namesAt + 2) c.names)

def recordBytes (r : Cell × Nat) : List Byte := r.1.bytes ++ Cell.bytes (BitVec.ofNat 32 r.2)

def head : List Byte := c.header.bytes ++ c.records.flatMap recordBytes ++ c.table

def body : List Byte := c.code.flatMap Cell.bytes ++ c.data.flatMap Cell.bytes

def image : List Byte := c.head ++ List.replicate (c.cod - c.head.length) 0 ++ c.body

end Contents

namespace Builder

/-- What is built when every label is bound. -/
def contents (b : Builder) : Contents where
  code := (b.filled b.addressD).toList
  data := b.data.toList
  publics := b.declared.mergeSort fun p q => decide (p.2.toInt ≤ q.2.toInt)
  natives := b.natives.toList
  entry := b.main.elim (-1) b.addressD
  stackSize := b.stackSize

/-- An image is built, unless a label that is referred to is not bound. -/
theorem build_eq (b : Builder) : b.build = orUnbound
    (b.unbound? (b.fixups.toList.map (·.label) ++ b.publics.toList.map (·.2) ++ b.main.toList))
    b.contents.image.toArray := by
  unfold build
  rw [resolvedCode_eq, sortedPublics_eq, entry_eq]
  have happend :
      b.unbound? (b.fixups.toList.map (·.label) ++ b.publics.toList.map (·.2) ++ b.main.toList) =
      (b.unbound? (b.fixups.toList.map (·.label))).or
        ((b.unbound? (b.publics.toList.map (·.2))).or ((b.unbound? b.main.toList).or none)) := by
    simp only [unbound?, List.find?_append, Option.or_assoc, Option.or_none]
  rw [happend]
  exact orUnbound_bind _ _ _ _ _ (orUnbound_bind _ _ _ _ _ (orUnbound_bind _ _ _ _ _ rfl))

end Builder

/-! ## Section 3: Where the parts stand -/

namespace Builder

theorem le_alignUp (n : Nat) : n ≤ alignUp n := by
  unfold alignUp
  omega

theorem length_nameOffsets (start : Nat) (names : List String) :
    (nameOffsets start names).length = names.length := by
  induction names generalizing start with
  | nil => rfl
  | cons s names ih => rw [nameOffsets, List.length_cons, ih, List.length_cons]

theorem nameOffsets_spec {names : List String} {j : Nat} {s : String} (start : Nat)
    (hj : names[j]? = some s) : ∃ o rest, (nameOffsets start names)[j]? = some (start + o) ∧
      (names.flatMap fun s => Text.utf8 s ++ [0]).drop o = Text.utf8 s ++ 0 :: rest := by
  induction names generalizing start j with
  | nil => cases hj
  | cons s' names ih =>
    rw [List.flatMap_cons]
    cases j with
    | zero =>
      cases hj
      exact ⟨0, _, rfl, by rw [List.drop_zero, List.append_assoc]; rfl⟩
    | succ j =>
      obtain ⟨o, rest, ho, hdrop⟩ := ih (start + s'.utf8ByteSize + 1) hj
      refine ⟨(Text.utf8 s' ++ [0]).length + o, rest, ?_, ?_⟩
      · rw [nameOffsets, List.getElem?_cons_succ, ho, List.length_append, Text.length_utf8]
        simp only [List.length_singleton, Option.some.injEq]
        omega
      · rw [← List.drop_drop, List.drop_left, hdrop]

end Builder

theorem Half.length_bytes (x : Half) : x.bytes.length = 2 := rfl

theorem Header.length_bytes (h : Header) : h.bytes.length = length := by
  simp only [bytes, List.length_append, Cell.length_bytes, Half.length_bytes, List.length_cons,
    List.length_nil]
  rfl

theorem drop_flatMap_of_length {α β : Type} {f : α → List β} {k : Nat} (hf : ∀ x, (f x).length = k)
    (l : List α) (j : Nat) : (l.flatMap f).drop (k * j) = (l.drop j).flatMap f := by
  induction j generalizing l with
  | zero => rfl
  | succ j ih =>
    cases l with
    | nil => simp
    | cons x l =>
      rw [List.flatMap_cons, List.drop_succ_cons, Nat.mul_succ, Nat.add_comm,
        ← List.drop_drop, ← hf x, List.drop_left, hf x, ih]

namespace Contents

variable (c : Contents)

theorem length_records : c.records.length = c.publics.length + c.natives.length := by
  rw [records, List.length_zip, Builder.length_nameOffsets]
  simp [addresses, names]

theorem length_recordBytes (r : Cell × Nat) : (recordBytes r).length = Header.symbolLength := rfl

theorem length_recordsBytes (rs : List (Cell × Nat)) :
    (rs.flatMap recordBytes).length = rs.length * Header.symbolLength := by
  induction rs with
  | nil => rfl
  | cons r rs ih =>
    rw [List.flatMap_cons, List.length_append, ih, length_recordBytes,
      List.length_cons, Nat.succ_mul, Nat.add_comm]

theorem length_front : (c.header.bytes ++ c.records.flatMap recordBytes).length = c.namesAt := by
  rw [List.length_append, length_recordsBytes, length_records, Header.length_bytes,
    namesAt, nativesAt, Nat.add_mul, Nat.add_assoc]

theorem length_head : c.head.length = c.namesAt + c.table.length := by
  rw [head, List.length_append, length_front]

theorem length_head_le : c.head.length ≤ c.cod := by
  rw [length_head]
  exact Builder.le_alignUp _

theorem length_padded : (c.head ++ List.replicate (c.cod - c.head.length) 0).length = c.cod := by
  have hle := c.length_head_le
  rw [List.length_append, List.length_replicate]
  omega

theorem length_image : c.image.length = c.hea := by
  rw [image, List.length_append, length_padded, body, List.length_append, Cell.length_flatMap_bytes,
    Cell.length_flatMap_bytes, hea, dat]
  rw [Nat.mul_comm Cell.width, Nat.mul_comm Cell.width, Nat.add_assoc]

/-- The bytes of the block: the image, and zeros for heap and stack. -/
def block : List Byte := c.image ++ List.replicate c.stackSize 0

theorem drop_cod : c.block.drop c.cod = c.body ++ List.replicate c.stackSize 0 := by
  rw [block, image, List.append_assoc]
  exact List.drop_left' c.length_padded

theorem drop_dat :
    c.block.drop c.dat = c.data.flatMap Cell.bytes ++ List.replicate c.stackSize 0 := by
  rw [dat, ← List.drop_drop, drop_cod, body, List.append_assoc]
  exact List.drop_left' (by rw [Cell.length_flatMap_bytes, Nat.mul_comm])

/-- What stands behind the names. -/
def tail : List Byte :=
  List.replicate (c.cod - c.head.length) 0 ++ (c.body ++ List.replicate c.stackSize 0)

theorem block_eq : c.block = c.head ++ c.tail := by
  simp only [block, image, tail, List.append_assoc]

theorem record_spec {bytes tail : List Byte} {j : Nat} {s : String} {x : Cell}
    (hcod : c.cod < 0x100000000)
    (hbytes : bytes = c.head ++ tail) (hname : c.names[j]? = some s)
    (haddress : c.addresses[j]? = some x) : ∃ (o : Cell) (rest rest' : List Byte),
      bytes.drop (Header.length + j * Header.symbolLength) = x.bytes ++ (o.bytes ++ rest) ∧
      bytes.drop o.toNat = Text.utf8 s ++ 0 :: rest' := by
  obtain ⟨o, rest, ho, hdrop⟩ := Builder.nameOffsets_spec (c.namesAt + 2) hname
  have hrecord : c.records[j]? = some (x, c.namesAt + 2 + o) := by
    rw [records, List.getElem?_zip_eq_some]
    exact ⟨haddress, ho⟩
  -- The record stands behind the header and the records before it.
  obtain ⟨hj, hget⟩ := List.getElem?_eq_some_iff.mp hrecord
  have htail : bytes = c.header.bytes ++ (c.records.flatMap recordBytes ++ (c.table ++ tail)) := by
    simp only [hbytes, head, List.append_assoc]
  have hrecords : bytes.drop (Header.length + j * Header.symbolLength) =
      x.bytes ++ (Cell.bytes (BitVec.ofNat 32 (c.namesAt + 2 + o)) ++
        ((c.records.drop (j + 1)).flatMap recordBytes ++ (c.table ++ tail))) := by
    have hle : Header.symbolLength * j ≤ (c.records.flatMap recordBytes).length := by
      rw [length_recordsBytes, Nat.mul_comm]
      exact Nat.mul_le_mul_right _ (Nat.le_of_lt hj)
    rw [← List.drop_drop, htail, List.drop_left' c.header.length_bytes, Nat.mul_comm,
      List.drop_append_of_le_length hle, drop_flatMap_of_length length_recordBytes,
      List.drop_eq_getElem_cons hj, hget, List.flatMap_cons, recordBytes]
    simp only [List.append_assoc]
  -- The name stands in the table of names, which starts with the length of the longest one.
  have ho' : o < (c.names.flatMap fun s => Text.utf8 s ++ [0]).length := by
    have hlength := congrArg List.length hdrop
    rw [List.length_drop, List.length_append, List.length_cons] at hlength
    omega
  have hnames : bytes.drop (c.namesAt + 2 + o) = Text.utf8 s ++ 0 :: (rest ++ tail) := by
    rw [← List.drop_drop, ← List.drop_drop, htail, ← List.append_assoc,
      List.drop_left' c.length_front, table,
      Builder.nameTable, List.append_assoc, List.drop_left' (Half.length_bytes _),
      List.drop_append_of_le_length (Nat.le_of_lt ho'), hdrop, List.append_assoc]
    rfl
  have hlt : c.namesAt + 2 + o < 0x100000000 := by
    have htable : c.table.length = 2 + (c.names.flatMap fun s => Text.utf8 s ++ [0]).length :=
      List.length_append
    have hle := c.length_head_le
    rw [length_head] at hle
    omega
  refine ⟨BitVec.ofNat 32 (c.namesAt + 2 + o), _, rest ++ tail, hrecords, ?_⟩
  rw [BitVec.toNat_ofNat, Nat.mod_eq_of_lt hlt, hnames]

end Contents

/-! ## Section 4: Loading -/

theorem Half.ofBytes_bytes (x : Half) : ofBytes (x.extractLsb' 0 8) (x.extractLsb' 8 8) = x := by
  refine BitVec.eq_of_getLsbD_eq fun i hi => ?_
  rw [ofBytes, BitVec.getLsbD_append, BitVec.getLsbD_extractLsb', BitVec.getLsbD_extractLsb']
  by_cases hlow : i < 8
  · simp [hlow]
  · simp [hlow, show i - 8 < 8 by omega, show 8 + (i - 8) = i by omega]

namespace Block

variable {b : Block} {o : Nat} {rest : List Byte}

theorem byte?_of_drop {x : Byte} (h : b.toList.drop o = x :: rest) :
    b.byte? o = some x ∧ b.toList.drop (o + 1) = rest := by
  have hget : (b.toList.drop o)[0]? = some x := by
    rw [h]
    rfl
  rw [List.getElem?_drop, Array.getElem?_toList] at hget
  refine ⟨hget, ?_⟩
  rw [← List.drop_drop, h]
  rfl

theorem half?_of_drop {x : Half} (h : b.toList.drop o = x.bytes ++ rest) :
    b.half? o = some x ∧ b.toList.drop (o + 2) = rest := by
  have hget : ∀ i < 2, b[o + i]? = x.bytes[i]? := by
    intro i hi
    rw [← Array.getElem?_toList, ← List.getElem?_drop, h, List.getElem?_append_left hi]
  have hfit : o + 2 ≤ b.size := by
    obtain ⟨hlt, -⟩ := Array.getElem?_eq_some_iff.mp (hget 1 (by decide))
    omega
  constructor
  · rw [half?, if_pos hfit, Array.getD_eq_getD_getElem?, Array.getD_eq_getD_getElem?,
      hget 1 (by decide), show b[o]? = x.bytes[0]? from hget 0 (by decide)]
    exact congrArg some x.ofBytes_bytes
  · rw [← List.drop_drop, h]
    rfl

theorem cell?_of_drop {x : Cell} (h : b.toList.drop o = x.bytes ++ rest) :
    b.cell? o = some x ∧ b.toList.drop (o + 4) = rest := by
  refine ⟨cell?_eq_some_iff.mpr ⟨_, h⟩, ?_⟩
  rw [← List.drop_drop, h]
  rfl

end Block

theorem Header.read?_of_bytes {image : Block} {h : Header} {rest : List Byte}
    (himage : image.toList = h.bytes ++ rest) : read? image = some h := by
  have hstart : image.toList.drop 0 = h.bytes ++ rest := himage
  simp only [bytes, List.append_assoc] at hstart
  obtain ⟨hsize, hrest⟩ := Block.cell?_of_drop hstart
  obtain ⟨hmagic, hrest⟩ := Block.half?_of_drop hrest
  obtain ⟨hfile, hrest⟩ := Block.byte?_of_drop hrest
  obtain ⟨hmachine, hrest⟩ := Block.byte?_of_drop hrest
  obtain ⟨hflags, hrest⟩ := Block.half?_of_drop hrest
  obtain ⟨hrecord, hrest⟩ := Block.half?_of_drop hrest
  obtain ⟨hcod, hrest⟩ := Block.cell?_of_drop hrest
  obtain ⟨hdat, hrest⟩ := Block.cell?_of_drop hrest
  obtain ⟨hhea, hrest⟩ := Block.cell?_of_drop hrest
  obtain ⟨hstp, hrest⟩ := Block.cell?_of_drop hrest
  obtain ⟨hcip, hrest⟩ := Block.cell?_of_drop hrest
  obtain ⟨hpublics, hrest⟩ := Block.cell?_of_drop hrest
  obtain ⟨hnatives, hrest⟩ := Block.cell?_of_drop hrest
  obtain ⟨hlibraries, hrest⟩ := Block.cell?_of_drop hrest
  obtain ⟨hpubvars, hrest⟩ := Block.cell?_of_drop hrest
  obtain ⟨htags, hrest⟩ := Block.cell?_of_drop hrest
  obtain ⟨hnames, -⟩ := Block.cell?_of_drop hrest
  simp only [read?, hsize, hmagic, hfile, hmachine, hflags, hrecord, hcod, hdat, hhea, hstp,
    hcip, hpublics, hnatives, hlibraries, hpubvars, htags, hnames]
  rfl

theorem Cell.toNat_ofNat {n : Nat} (hn : n < 0x80000000) : (BitVec.ofNat 32 n).toNat = n := by
  rw [BitVec.toNat_ofNat, Nat.mod_eq_of_lt (by omega)]

theorem Cell.toInt_ofNat {n : Nat} (hn : n < 0x80000000) : (BitVec.ofNat 32 n).toInt = n := by
  rw [BitVec.toInt_eq_toNat_of_lt (by rw [toNat_ofNat hn]; omega), toNat_ofNat hn]

namespace Contents

variable {c : Contents}

theorem offsets_le (c : Contents) : Header.length ≤ c.nativesAt ∧ c.nativesAt ≤ c.namesAt ∧
    c.namesAt ≤ c.cod ∧ c.cod ≤ c.dat ∧ c.dat ≤ c.hea ∧ c.hea ≤ c.stp := by
  have hcod := c.length_head_le
  rw [length_head] at hcod
  refine ⟨Nat.le_add_right .., Nat.le_add_right .., by omega, Nat.le_add_right ..,
    Nat.le_add_right .., Nat.le_add_right ..⟩

theorem valid_header (hstack : 8 ≤ c.stackSize) (hstp : c.stp < 0x80000000) :
    c.header.Valid c.image.length := by
  obtain ⟨hnatives, hnames, hcod, hdat, hhea, hle⟩ := c.offsets_le
  have hlength : Header.length = 56 := rfl
  have hsymbol : Header.symbolLength = 8 := rfl
  have hwidth : Cell.width = 4 := rfl
  -- No offset reaches the sign bit, so that comparing cells is comparing numbers.
  have hpublics' := Cell.toInt_ofNat (n := Header.length) (by omega)
  have hnatives' := Cell.toInt_ofNat (n := c.nativesAt) (by omega)
  have hnames' := Cell.toInt_ofNat (n := c.namesAt) (by omega)
  have hcod' := Cell.toInt_ofNat (n := c.cod) (by omega)
  have hdat' := Cell.toInt_ofNat (n := c.dat) (by omega)
  have hhea' := Cell.toInt_ofNat (n := c.hea) (by omega)
  have hstp' := Cell.toInt_ofNat (n := c.stp) (by omega)
  constructor
  case magic => rfl
  case version =>
    exact ⟨show Header.minFileVersion ≤ Header.maxFileVersion by decide, BitVec.le_refl _,
      BitVec.le_refl _⟩
  case flags => exact show (0 : Half) &&& Header.compactFlag = 0 by decide
  case recordSize => rfl
  case ordered =>
    simp only [Header.boundaries, Header.ascending, Bool.and_eq_true, decide_eq_true_eq,
      header, hpublics', hnatives', hnames', hcod', hdat', hhea', hstp', and_true]
    omega
  case size =>
    rw [length_image]
    simp only [header, hhea']
    omega
  case tables =>
    simp only [header, hpublics', hnatives', hnames', hsymbol]
    rw [namesAt, nativesAt, hsymbol]
    omega
  case aligned =>
    simp only [header, hdat', hcod', hwidth]
    rw [dat, hwidth]
    omega
  case stack =>
    simp only [header, hstp', hhea', hwidth]
    rw [stp]
    omega

theorem read?_image (c : Contents) : Header.read? c.image.toArray = some c.header := by
  have himage : c.image.toArray.toList = c.header.bytes ++ (c.records.flatMap recordBytes ++
      (c.table ++ (List.replicate (c.cod - c.head.length) 0 ++ c.body))) := by
    simp only [image, head, List.append_assoc]
  exact Header.read?_of_bytes himage

/-- A built image is accepted, and becomes the block that it describes. -/
theorem load_image (hstack : 8 ≤ c.stackSize) (hstp : c.stp < 0x80000000) :
    ∃ vm, Instance.load c.image.toArray = .ok vm ∧ vm.header = c.header ∧
      vm.regs.cip = c.entry ∧ vm.block.toList = c.block := by
  obtain ⟨hnatives, hnames, hcod, hdat, hhea, hle⟩ := c.offsets_le
  have hsize : c.image.toArray.size = c.hea := c.length_image
  have hlength : Header.length ≤ c.image.toArray.size := by
    rw [hsize]
    omega
  have hparse : Header.parse c.image.toArray = .ok c.header :=
    Header.parse_eq_ok_iff.mpr ⟨hlength, c.read?_image, valid_header hstack hstp⟩
  have hblock : (Block.slice c.image.toArray 0 c.header.size.toNat).resize c.header.stp.toNat =
      c.block.toArray := by
    have hhea' : c.header.size.toNat = c.image.toArray.size := by
      rw [hsize]
      exact Cell.toNat_ofNat (by omega)
    have hstp' : c.header.stp.toNat = c.stp := Cell.toNat_ofNat hstp
    rw [hhea', hstp', Block.resize_whole _ _ (by omega), hsize, stp, Nat.add_sub_cancel_left, block]
    simp
  rw [Instance.load, hparse, ok_bind, hblock]
  exact ⟨_, rfl, rfl, rfl, rfl⟩

/-- A built image that is accepted has its code below 2³¹, and the block starts with header, tables
    and names, whatever became of the offsets behind them. -/
theorem front_of_load {vm : Instance} (hload : Instance.load c.image.toArray = .ok vm)
    (hcod : c.cod < 0x100000000) : c.cod < 0x80000000 ∧ vm.header = c.header ∧ vm.natives = #[] ∧
      ∃ tail, vm.block.toList = c.head ++ tail := by
  obtain ⟨header, hparse, hvm⟩ := bind_eq_ok.mp hload
  obtain ⟨-, hread, hvalid⟩ := Header.parse_eq_ok_iff.mp hparse
  obtain rfl : c.header = header := Option.some_inj.mp (c.read?_image.symm.trans hread)
  cases hvm
  obtain ⟨hpublics, hnatives, hlibraries, hnames, hdat, hhea, hstp⟩ :=
    Header.laid_of_ascending hvalid.ordered
  obtain ⟨-, -, -, -, hsize⟩ := hvalid.segments
  obtain ⟨hheaSize, -⟩ := hvalid.size
  have hlength : (Header.length : Int) = 56 := rfl
  have hcod' : c.header.cod.toNat = c.cod := (BitVec.toNat_ofNat ..).trans (Nat.mod_eq_of_lt hcod)
  have hcodInt := Cell.toInt_eq_toNat (c := c.header.cod) (by omega)
  have hsizeInt := Cell.toInt_eq_toNat (c := c.header.size) (by omega)
  have hstpInt := Cell.toInt_eq_toNat (c := c.header.stp) (by omega)
  have hstored : c.head.length ≤ min c.header.size.toNat c.header.stp.toNat := by
    have hle := c.length_head_le
    omega
  refine ⟨?_, rfl, rfl, ?_⟩
  · have hlt := BitVec.toInt_lt (x := c.header.cod)
    omega
  · rw [Block.resize_slice hsize, Block.slice, Array.toList_append, Array.toList_extract,
      List.extract_eq_take_drop, List.drop_zero, Nat.sub_zero, image, List.append_assoc,
      List.take_append, List.take_of_length_le hstored, List.append_assoc]
    exact ⟨_, rfl⟩

variable {vm : Instance} (hstp : c.stp < 0x80000000) (hheader : vm.header = c.header)
  (hblock : vm.block.toList = c.block)
include hstp hheader hblock

theorem code_of_block : vm.code.toList = c.code.flatMap Cell.bytes := by
  obtain ⟨-, -, hcod, hdat, hhea, hle⟩ := c.offsets_le
  have hcod' : c.header.cod.toNat = c.cod := Cell.toNat_ofNat (by omega)
  have hdat' : c.header.dat.toNat = c.dat := Cell.toNat_ofNat (by omega)
  rw [Instance.code, Block.slice, Array.toList_extract, hblock, hheader, hcod', hdat',
    List.extract_eq_take_drop, drop_cod, dat, Nat.add_sub_cancel_left, body, List.append_assoc]
  exact List.take_left' (by rw [Cell.length_flatMap_bytes, Nat.mul_comm])

theorem data_of_block :
    vm.data.toList = c.data.flatMap Cell.bytes ++ List.replicate c.stackSize 0 := by
  obtain ⟨-, -, hcod, hdat, hhea, hle⟩ := c.offsets_le
  have hdat' : c.header.dat.toNat = c.dat := Cell.toNat_ofNat (by omega)
  rw [Instance.data, Block.slice, Array.toList_extract, Instance.dataStart, hheader, hdat',
    List.extract_eq_take_drop, ← Array.length_toList, hblock, ← drop_dat, ← List.length_drop,
    List.take_length]

end Contents

/-- A table has these names and addresses, in this order. -/
structure SymbolTable.Lists (t : SymbolTable) (b : Block) (entries : List (String × Cell)) :
    Prop where
  length : t.len = entries.length
  address : ∀ i e, entries[i]? = some e → (t.get? b i).map (·.address) = some e.2
  name : ∀ i e, entries[i]? = some e → t.name? b i = some e.1

theorem SymbolTable.between_ofNat {start n : Nat}
    (hstop : start + n * Header.symbolLength < 0x80000000) :
    between (BitVec.ofNat 32 start) (BitVec.ofNat 32 (start + n * Header.symbolLength)) =
      ⟨start, n⟩ := by
  have hsymbol : Header.symbolLength = 8 := rfl
  rw [between, Cell.toNat_ofNat (by omega), Cell.toInt_ofNat hstop, Cell.toInt_ofNat (by omega),
    hsymbol]
  congr 1
  omega

namespace Contents

variable {c : Contents}

/-- A record of an image is found in a table that counts it from another record on. -/
theorem lists_of_block {b : Block} {tail : List Byte} {entries : List (String × Cell)}
    {t : SymbolTable} (skip : Nat) (hcod : c.cod < 0x80000000) (hblock : b.toList = c.head ++ tail)
    (hnul : ∀ s ∈ c.names, 0 ∉ Text.utf8 s)
    (hoffset : t.offset = Header.length + skip * Header.symbolLength)
    (hlen : t.len = entries.length) (hentries : ∀ i e, entries[i]? = some e →
      c.names[skip + i]? = some e.1 ∧ c.addresses[skip + i]? = some e.2) : t.Lists b entries := by
  have hget : ∀ i e, entries[i]? = some e → ∃ o rest, t.get? b i = some ⟨e.2, o⟩ ∧
      b.toList.drop o.toNat = Text.utf8 e.1 ++ 0 :: rest := by
    intro i e he
    obtain ⟨hname, haddress⟩ := hentries i e he
    obtain ⟨o, rest, rest', hrecord, hname'⟩ := c.record_spec (by omega) hblock hname haddress
    have hi : i < t.len := by
      rw [hlen]
      exact (List.getElem?_eq_some_iff.mp he).1
    have ho : t.recordOffset? i = some (Header.length + (skip + i) * Header.symbolLength) := by
      rw [SymbolTable.recordOffset?, if_pos hi, hoffset, Nat.add_mul, Nat.add_assoc]
    obtain ⟨hcell, hrest⟩ := Block.cell?_of_drop hrecord
    obtain ⟨hcell', -⟩ := Block.cell?_of_drop hrest
    refine ⟨o, rest', ?_, hname'⟩
    simp only [SymbolTable.get?, ho, Option.bind_eq_bind, Option.bind_some, hcell]
    rw [show Cell.width = 4 from rfl, hcell']
    rfl
  refine ⟨hlen, fun i e he => ?_, fun i e he => ?_⟩
  · obtain ⟨o, rest, hsymbol, -⟩ := hget i e he
    rw [hsymbol]
    rfl
  · obtain ⟨o, rest, hsymbol, hname⟩ := hget i e he
    have hmem : e.1 ∈ c.names := List.mem_of_getElem? (hentries i e he).1
    exact SymbolTable.name?_eq_some_iff.mpr ⟨_, hsymbol, hnul _ hmem, rest, hname⟩

theorem publicTable_lists {b : Block} {tail : List Byte} (hcod : c.cod < 0x80000000)
    (hblock : b.toList = c.head ++ tail) (hnul : ∀ s ∈ c.names, 0 ∉ Text.utf8 s) :
    c.header.publicTable.Lists b c.publics := by
  obtain ⟨-, hnames, hle, -⟩ := c.offsets_le
  have htable : c.header.publicTable = ⟨Header.length, c.publics.length⟩ :=
    SymbolTable.between_ofNat (show c.nativesAt < _ by omega)
  rw [htable]
  refine lists_of_block 0 (by omega) hblock hnul rfl rfl fun i e he => ?_
  have hi := (List.getElem?_eq_some_iff.mp he).1
  rw [Nat.zero_add, names, addresses, List.getElem?_append_left (by rwa [List.length_map]),
    List.getElem?_append_left (by rwa [List.length_map]), List.getElem?_map, List.getElem?_map, he]
  exact ⟨rfl, rfl⟩

theorem nativeTable_eq (hcod : c.cod < 0x80000000) :
    c.header.nativeTable = ⟨c.nativesAt, c.natives.length⟩ := by
  obtain ⟨-, -, hnames, -⟩ := c.offsets_le
  exact SymbolTable.between_ofNat (show c.namesAt < _ by omega)

theorem nativeTable_lists {b : Block} {tail : List Byte} (hcod : c.cod < 0x80000000)
    (hblock : b.toList = c.head ++ tail) (hnul : ∀ s ∈ c.names, 0 ∉ Text.utf8 s) :
    c.header.nativeTable.Lists b (c.natives.map fun s => (s, c.handle s)) := by
  rw [nativeTable_eq hcod]
  refine lists_of_block c.publics.length (by omega) hblock hnul rfl (List.length_map _).symm
    fun i e he => ?_
  rw [List.getElem?_map] at he
  obtain ⟨s, hs, rfl⟩ := Option.map_eq_some_iff.mp he
  have hle : ∀ {α : Type} (f : String × Cell → α), (c.publics.map f).length ≤
      c.publics.length + i :=
    fun f => by
      rw [List.length_map]
      exact Nat.le_add_right ..
  rw [names, addresses, List.getElem?_append_right (hle _), List.getElem?_append_right (hle _),
    List.length_map, List.length_map, Nat.add_sub_cancel_left, List.getElem?_map, hs]
  exact ⟨rfl, rfl⟩

end Contents

end PawnNative
