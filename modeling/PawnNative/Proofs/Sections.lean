import Mathlib.Tactic.Common
import PawnNative.Proofs.Loading

/-! # Sections of loaded images

    Whatever bytes an image consists of, it is refused or it becomes an instance
    whose sections lie inside its block: the differences of offsets that loading
    forms do not wrap, the records of both symbol tables can be read, the records of
    natives, which are the only ones that are written, lie before code and data, and
    the name of a record is looked up inside the block wherever its offset points.

    Everything follows from the checks of the header, and most of it from the order of
    its offsets.
-/

namespace PawnNative

/-! ## Section 1: Differences of offsets -/

namespace Header

variable {h : Header} {len : Nat} {image : Block}

/-- The differences that loading forms: the sizes of the tables, of the code, of the data with heap
    and stack, of the room for heap and stack, and the addresses that the registers start with. -/
def differences (h : Header) : List (Cell × Cell) :=
  [(h.natives, h.publics), (h.libraries, h.natives), (h.dat, h.cod), (h.stp, h.hea),
   (h.hea, h.dat), (h.stp, h.dat), (h.stp - h.dat, 4)]

theorem not_ssubOverflow_of_le {x y : Cell} (hy : 0 ≤ y.toInt) (hle : y.toInt ≤ x.toInt) :
    ¬BitVec.ssubOverflow x y := by
  have hx := BitVec.toInt_lt (x := x)
  simp only [BitVec.ssubOverflow, Bool.or_eq_true, decide_eq_true_eq, not_or]
  omega

theorem Laid.not_ssubOverflow (hlaid : h.Laid) :
    ∀ d ∈ h.differences, ¬BitVec.ssubOverflow d.1 d.2 := by
  obtain ⟨hpublics, hnatives, hlibraries, hcod, hdat, hhea, hstp⟩ := hlaid
  have hlength : (length : Int) = 56 := rfl
  have hsub : (h.stp - h.dat).toInt = h.stp.toInt - h.dat.toInt :=
    BitVec.toInt_sub_of_not_ssubOverflow (not_ssubOverflow_of_le (by omega) (by omega))
  intro d hd
  simp only [differences, List.mem_cons, List.not_mem_nil, or_false] at hd
  rcases hd with rfl | rfl | rfl | rfl | rfl | rfl | rfl
  case inr.inr.inr.inr.inr.inr =>
    -- Four bytes below a size that is not negative.
    have hfour : (4 : Cell).toInt = 4 := rfl
    have hlt := BitVec.toInt_lt (x := h.stp)
    simp only [BitVec.ssubOverflow, Bool.or_eq_true, decide_eq_true_eq, not_or]
    omega
  all_goals exact not_ssubOverflow_of_le (by dsimp only; omega) (by dsimp only; omega)

end Header

/-! ## Section 2: Names -/

namespace Text

theorem utf8_eq_map (s : String) : utf8 s = s.toByteArray.data.toList.map UInt8.toBitVec := rfl

theorem length_utf8 (s : String) : (utf8 s).length = s.utf8ByteSize := by
  rw [utf8_eq_map, List.length_map, Array.length_toList]
  exact String.size_toByteArray

/-- A text is read back from its encoding, and from nothing else. -/
theorem ofUtf8?_eq_some_iff {bytes : List Byte} {s : String} :
    ofUtf8? bytes = some s ↔ bytes = utf8 s := by
  have hback : ∀ a : ByteArray, (a.data.toList.map UInt8.toBitVec) = bytes ↔
      (⟨(bytes.map UInt8.ofBitVec).toArray⟩ : ByteArray) = a := by
    intro a
    constructor
    · rintro rfl
      simp [Function.comp_def]
    · rintro rfl
      simp [Function.comp_def]
  unfold ofUtf8? String.fromUTF8?
  rw [utf8_eq_map, eq_comm (a := bytes), hback]
  split_ifs with hvalid
  · rw [Option.some.injEq, ← String.toByteArray_inj]
    rfl
  · simp only [false_iff]
    intro heq
    exact hvalid (heq ▸ s.isValidUTF8)

end Text

namespace Block

theorem nulTerminated_go_eq_some_iff {b : Block} {n i : Nat} {bs : List Byte}
    (hn : n = b.size - i) : nulTerminated.go b n i = some bs ↔
      0 ∉ bs ∧ ∃ rest, b.toList.drop i = bs ++ 0 :: rest := by
  -- Induction over the bytes that are left; a zero byte ends the text, any other one is its next.
  induction n generalizing i bs with
  | zero =>
    have hdrop : b.toList.drop i = [] := List.drop_eq_nil_of_le (by rw [Array.length_toList]; omega)
    simp [nulTerminated.go, hdrop]
  | succ n ih =>
    have hi : i < b.size := by omega
    have hdrop : b.toList.drop i = b[i] :: b.toList.drop (i + 1) := by
      rw [List.drop_eq_getElem_cons (by simpa using hi)]
      rfl
    rw [nulTerminated.go, byte?, Array.getElem?_eq_getElem hi, hdrop]
    generalize b[i] = c
    dsimp only
    split_ifs with hzero
    · subst hzero
      cases bs with
      | nil => simp
      | cons c bs =>
        simp only [Option.some.injEq, reduceCtorEq, List.cons_append, List.cons.injEq, false_iff]
        rintro ⟨hnot, rest, rfl, -⟩
        exact hnot List.mem_cons_self
    · rw [Option.map_eq_some_iff]
      cases bs with
      | nil => simpa using hzero
      | cons c' bs =>
        simp only [List.cons.injEq, List.cons_append, List.mem_cons, not_or]
        constructor
        · rintro ⟨bs', hbs', rfl, rfl⟩
          obtain ⟨hnot, rest, hrest⟩ := (ih (by omega)).mp hbs'
          exact ⟨⟨Ne.symm hzero, hnot⟩, rest, rfl, hrest⟩
        · rintro ⟨⟨-, hnot⟩, rest, rfl, hrest⟩
          exact ⟨bs, (ih (by omega)).mpr ⟨hnot, rest, hrest⟩, rfl, rfl⟩

/-- What is read up to a zero byte are the bytes that stand there. -/
theorem nulTerminated_eq_some_iff {b : Block} {start : Nat} {bs : List Byte} :
    b.nulTerminated start = some bs ↔ 0 ∉ bs ∧ ∃ rest, b.toList.drop start = bs ++ 0 :: rest :=
  nulTerminated_go_eq_some_iff rfl

end Block

namespace SymbolTable

variable {t : SymbolTable} {b : Block} {index : Nat}

/-- The name of a record is the text that stands at the offset in the record. -/
theorem name?_eq_some_iff {s : String} : t.name? b index = some s ↔
    ∃ symbol, t.get? b index = some symbol ∧ 0 ∉ Text.utf8 s ∧
      ∃ rest, b.toList.drop symbol.nameOffset.toNat = Text.utf8 s ++ 0 :: rest := by
  unfold name?
  cases hget : t.get? b index with
  | none => simp
  | some symbol =>
    simp only [Option.bind_eq_bind, Option.bind_some, Option.bind_eq_some_iff,
      Text.ofUtf8?_eq_some_iff, Option.some.injEq, exists_eq_left']
    constructor
    · rintro ⟨bs, hbs, rfl⟩
      exact Block.nulTerminated_eq_some_iff.mp hbs
    · intro hname
      exact ⟨_, Block.nulTerminated_eq_some_iff.mpr hname, rfl⟩

theorem recordOffset?_le {o : Nat} (ho : t.recordOffset? index = some o) :
    o + Header.symbolLength ≤ t.offset + t.len * Header.symbolLength := by
  unfold recordOffset? at ho
  split_ifs at ho with hindex
  cases ho
  have hnext := Nat.mul_le_mul_right Header.symbolLength (Nat.succ_le_of_lt hindex)
  rw [Nat.succ_mul] at hnext
  omega

theorem exists_get? (hend : t.offset + t.len * Header.symbolLength ≤ b.size)
    (hindex : index < t.len) : ∃ o symbol, t.recordOffset? index = some o ∧
      o + Header.symbolLength ≤ t.offset + t.len * Header.symbolLength ∧
      t.get? b index = some symbol := by
  have ho : t.recordOffset? index = some (t.offset + index * Header.symbolLength) := if_pos hindex
  have hle := recordOffset?_le ho
  have hlength : Header.symbolLength = 8 := rfl
  have hwidth : Cell.width = 4 := rfl
  have hcell : ∀ o, o + 4 ≤ b.size → ∃ c, b.cell? o = some c := fun o ho => ⟨_, if_pos ho⟩
  obtain ⟨address, haddress⟩ := hcell (t.offset + index * Header.symbolLength) (by omega)
  obtain ⟨name, hname⟩ := hcell (t.offset + index * Header.symbolLength + Cell.width) (by omega)
  refine ⟨_, ⟨address, name⟩, ho, hle, ?_⟩
  simp [get?, ho, haddress, hname]

theorem get?_eq_none (hindex : t.len ≤ index) : t.get? b index = none := by
  have ho : t.recordOffset? index = none := if_neg (Nat.not_lt.mpr hindex)
  simp [get?, ho]

end SymbolTable

/-! ## Section 3: Loaded images -/

/-- The bytes of an image that are stored in the block. -/
def Header.stored (h : Header) : Nat := min h.size.toNat h.stp.toNat

/-- An instance whose sections lie inside its block, which starts with the bytes of an image. -/
structure Instance.LoadedFrom (vm : Instance) (image : Block) : Prop where
  differences : ∀ d ∈ vm.header.differences, ¬BitVec.ssubOverflow d.1 d.2
  /-- The block holds the stored bytes, and zeros up to its end. -/
  stored : vm.header.stored ≤ image.size
  block : vm.block = image.slice 0 vm.header.stored ++
    Array.replicate (vm.header.stp.toNat - vm.header.stored) 0
  size : vm.block.size = vm.header.stp.toNat
  code_range : vm.header.cod.toNat + vm.codeSize = vm.header.dat.toNat
  code : vm.code.size = vm.codeSize ∧ vm.codeSize % Cell.width = 0
  data_range : vm.dataStart + vm.dataSize = vm.block.size
  data : vm.data.size = vm.dataSize
  /-- A table has its records, wholly inside the block, and no more. -/
  records : ∀ t ∈ [vm.header.publicTable, vm.header.nativeTable],
    (∀ index < t.len, ∃ o symbol, t.recordOffset? index = some o ∧
      o + Header.symbolLength ≤ vm.block.size ∧ t.get? vm.block index = some symbol) ∧
    t.get? vm.block t.len = none
  /-- The records of natives end before the code, which ends where the data starts. -/
  natives : ∀ index o, vm.header.nativeTable.recordOffset? index = some o →
    o + Header.symbolLength ≤ vm.header.cod.toNat
  /-- A name that is found lies inside the block, together with the zero byte that ends it. -/
  names : ∀ (t : SymbolTable) (index : Nat) (s : String), t.name? vm.block index = some s →
    ∃ symbol rest, t.get? vm.block index = some symbol ∧
      symbol.nameOffset.toNat + (Text.utf8 s).length < vm.block.size ∧
      vm.block.toList.drop symbol.nameOffset.toNat = Text.utf8 s ++ 0 :: rest
  heap : 0 ≤ vm.regs.hlw.toInt ∧ vm.regs.hlw = vm.regs.hea ∧ vm.regs.hea.toInt < vm.regs.stk.toInt
  stack : vm.regs.stk = vm.regs.stp ∧ vm.regs.stp.toInt = (vm.dataSize : Int) - Cell.width
  frame : vm.regs.frm = 0

/-- A table between two offsets of a header ends at the second one. -/
theorem SymbolTable.between_end {start stop : Cell} (hstart : 0 ≤ start.toInt)
    (hle : start.toInt ≤ stop.toInt)
    (hsize : (stop.toInt - start.toInt) % Header.symbolLength = 0) :
    (SymbolTable.between start stop).offset +
      (SymbolTable.between start stop).len * Header.symbolLength = stop.toNat := by
  have hstart' := Cell.toInt_eq_toNat hstart
  have hstop' := Cell.toInt_eq_toNat (Int.le_trans hstart hle)
  have hlength : Header.symbolLength = 8 := rfl
  show start.toNat + (stop.toInt - start.toInt).toNat / 8 * 8 = stop.toNat
  rw [hlength] at hsize
  omega

theorem SymbolTable.name?_lt_size {t : SymbolTable} {b : Block} {index : Nat} {s : String}
    (hname : t.name? b index = some s) :
    ∃ symbol rest, t.get? b index = some symbol ∧
      symbol.nameOffset.toNat + (Text.utf8 s).length < b.size ∧
      b.toList.drop symbol.nameOffset.toNat = Text.utf8 s ++ 0 :: rest := by
  obtain ⟨symbol, hget, -, rest, hrest⟩ := name?_eq_some_iff.mp hname
  have hlength := congrArg List.length hrest
  rw [List.length_drop, List.length_append, List.length_cons, Array.length_toList] at hlength
  exact ⟨symbol, rest, hget, by omega, hrest⟩

namespace Header

variable {h : Header} {len : Nat}

theorem Valid.table_end (hvalid : h.Valid len) {t : SymbolTable}
    (ht : t ∈ [h.publicTable, h.nativeTable]) :
    t.offset + t.len * symbolLength ≤ h.cod.toNat := by
  have hlaid := laid_of_ascending hvalid.ordered
  obtain ⟨hpublics, hnatives, hlibraries, hcod, -, -, -⟩ := hlaid
  have hlength : (length : Int) = 56 := rfl
  have hcod' := Cell.toInt_eq_toNat (c := h.cod) (by omega)
  have hlib' := Cell.toInt_eq_toNat (c := h.libraries) (by omega)
  have hnat' := Cell.toInt_eq_toNat (c := h.natives) (by omega)
  simp only [List.mem_cons, List.not_mem_nil, or_false] at ht
  rcases ht with rfl | rfl
  · have hend := SymbolTable.between_end (by omega) hnatives hvalid.tables.1
    exact Nat.le_trans (Nat.le_of_eq hend) (by omega)
  · have hend := SymbolTable.between_end (by omega) hlibraries hvalid.tables.2
    exact Nat.le_trans (Nat.le_of_eq hend) (by omega)

theorem Valid.segments (hvalid : h.Valid len) : h.cod.toNat + h.codeSize = h.dat.toNat ∧
    h.codeSize % Cell.width = 0 ∧ h.dat.toNat + h.dataSize = h.stp.toNat ∧
    h.stored ≤ len ∧ h.size.toNat ≤ len := by
  obtain ⟨hpublics, hnatives, hlibraries, hcod, hdat, hhea, hstp⟩ :=
    laid_of_ascending hvalid.ordered
  obtain ⟨hsize, hlen⟩ := hvalid.size
  have haligned := hvalid.aligned
  have hlength : (length : Int) = 56 := rfl
  have hwidth : Cell.width = 4 := rfl
  have hsize' := Cell.toInt_eq_toNat (c := h.size) (by omega)
  have hcod' := Cell.toInt_eq_toNat (c := h.cod) (by omega)
  have hdat' := Cell.toInt_eq_toNat (c := h.dat) (by omega)
  have hstp' := Cell.toInt_eq_toNat (c := h.stp) (by omega)
  rw [hwidth] at haligned ⊢
  unfold codeSize dataSize stored
  omega

theorem Valid.registers (hvalid : h.Valid len) : 0 ≤ (h.hea - h.dat).toInt ∧
    (h.hea - h.dat).toInt < (h.stp - h.dat - 4).toInt ∧
    (h.stp - h.dat - 4).toInt = (h.dataSize : Int) - Cell.width := by
  have hlaid := laid_of_ascending hvalid.ordered
  have hover := hlaid.not_ssubOverflow
  have hsub : ∀ d ∈ h.differences, (d.1 - d.2).toInt = d.1.toInt - d.2.toInt :=
    fun d hd => BitVec.toInt_sub_of_not_ssubOverflow (hover d hd)
  have hhlw := hsub (h.hea, h.dat) (by simp [differences])
  have hdata := hsub (h.stp, h.dat) (by simp [differences])
  have hstk := hsub (h.stp - h.dat, 4) (by simp [differences])
  have hfour : (4 : Cell).toInt = 4 := rfl
  have hwidth : Cell.width = 4 := rfl
  have hroom := hvalid.stack
  have hhea := hlaid.hea
  dsimp only at hhlw hdata hstk
  unfold dataSize
  omega

end Header

/-- **Loading.** Every image is refused, or gives an instance with its sections in place. -/
theorem load_total_and_safe (image : Block) : (∃ e, Instance.load image = .error e) ∨
    ∃ vm, Instance.load image = .ok vm ∧ vm.LoadedFrom image := by
  cases hload : Instance.load image with
  | error e => exact Or.inl ⟨e, rfl⟩
  | ok vm =>
    refine Or.inr ⟨vm, rfl, ?_⟩
    obtain ⟨hcode, -⟩ := Instance.size_code hload
    obtain ⟨header, hparse, heq⟩ := bind_eq_ok.mp hload
    obtain ⟨-, -, hvalid⟩ := Header.parse_eq_ok_iff.mp hparse
    obtain ⟨hcodeRange, haligned, hdataRange, hstored, hsize⟩ := hvalid.segments
    obtain ⟨hhlw, hhea, hstk⟩ := hvalid.registers
    cases heq
    -- Everything is read off the header; the block only adds that it is as long as the header says.
    have hblock : ((image.slice 0 header.size.toNat).resize header.stp.toNat).size =
        header.stp.toNat := Block.size_resize ..
    constructor
    case differences => exact (Header.laid_of_ascending hvalid.ordered).not_ssubOverflow
    case stored => exact hstored
    case block => exact Block.resize_slice hsize
    case size => exact hblock
    case code_range => exact hcodeRange
    case code => exact ⟨hcode, haligned⟩
    case data_range => exact hdataRange.trans hblock.symm
    case data =>
      show (Array.extract _ header.dat.toNat _).size = header.dataSize
      rw [Array.size_extract, hblock]
      omega
    case records =>
      intro t ht
      have hend := hvalid.table_end ht
      refine ⟨fun index hindex => ?_, SymbolTable.get?_eq_none (Nat.le_refl _)⟩
      obtain ⟨o, symbol, ho, hle, hget⟩ := SymbolTable.exists_get?
        (b := (image.slice 0 header.size.toNat).resize header.stp.toNat) (by omega) hindex
      exact ⟨o, symbol, ho, by dsimp only; omega, hget⟩
    case natives =>
      intro index o ho
      have hend := hvalid.table_end (t := header.nativeTable) (by simp)
      exact Nat.le_trans (SymbolTable.recordOffset?_le ho) hend
    case names => exact fun t index s hname => SymbolTable.name?_lt_size hname
    case heap => exact ⟨hhlw, rfl, hhea⟩
    case stack => exact ⟨rfl, hstk⟩
    case frame => rfl

end PawnNative
