import Mathlib.Tactic.Common
import PawnNative.Instance
import PawnNative.Proofs.Outcome
import PawnNative.Proofs.Words

/-! # Loaded images

    A header that passes its checks describes sections that lie in order, at
    offsets below 2³¹. So the segments of an instance have the sizes that the
    header gives. The header is taken apart once, in `Header.parse_eq_ok_iff`.
-/

namespace PawnNative

namespace Header

/-- What the checks of a header ask for, in the order in which they are made. -/
structure Valid (h : Header) (len : Nat) : Prop where
  magic : h.magic = magicNumber
  version : minFileVersion ≤ h.fileVersion ∧ h.fileVersion ≤ maxFileVersion ∧
    h.machineVersion ≤ maxMachineVersion
  flags : h.flags &&& compactFlag = 0
  recordSize : h.recordSize.toInt = symbolLength
  ordered : ascending h.boundaries
  size : h.hea.toInt ≤ h.size.toInt ∧ h.size.toInt ≤ len
  tables : (h.natives.toInt - h.publics.toInt) % symbolLength = 0 ∧
    (h.libraries.toInt - h.natives.toInt) % symbolLength = 0
  aligned : (h.dat.toInt - h.cod.toInt) % Cell.width = 0
  stack : 2 * Cell.width ≤ h.stp.toInt - h.hea.toInt

variable {h : Header} {len : Nat} {image : Block}

theorem check_eq_ok_iff : h.check len = .ok () ↔ h.Valid len := by
  simp only [check, ite_error_eq_ok, not_or, not_not, BitVec.not_lt, Int.not_lt, and_true]
  constructor
  · rintro ⟨hmagic, hversion, hflags, hrecord, hordered, hsize, htables, haligned, hstack⟩
    exact ⟨hmagic, hversion, hflags, hrecord, hordered, hsize, htables, haligned, hstack⟩
  · rintro ⟨hmagic, hversion, hflags, hrecord, hordered, hsize, htables, haligned, hstack⟩
    exact ⟨hmagic, hversion, hflags, hrecord, hordered, hsize, htables, haligned, hstack⟩

/-- An image is accepted when its header is there and passes the checks. -/
theorem parse_eq_ok_iff : parse image = .ok h ↔
    length ≤ image.size ∧ read? image = some h ∧ h.Valid image.size := by
  unfold parse
  rw [ite_error_eq_ok, Nat.not_lt]
  refine and_congr_right fun _ => ?_
  cases hread : read? image with
  | none => simp
  | some header =>
    simp only [Option.some.injEq]
    cases hcheck : header.check image.size with
    | error e =>
      simp only [Except.map, reduceCtorEq, false_iff, not_and]
      rintro rfl hvalid
      rw [check_eq_ok_iff.mpr hvalid] at hcheck
      cases hcheck
    | ok u =>
      simp only [Except.map, Except.ok.injEq]
      constructor
      · rintro rfl
        exact ⟨rfl, check_eq_ok_iff.mp hcheck⟩
      · exact And.left

/-- The offsets of a header as numbers, from the end of the header to the end of the block. -/
structure Laid (h : Header) : Prop where
  publics : (length : Int) ≤ h.publics.toInt
  natives : h.publics.toInt ≤ h.natives.toInt
  libraries : h.natives.toInt ≤ h.libraries.toInt
  cod : h.libraries.toInt ≤ h.cod.toInt
  dat : h.cod.toInt ≤ h.dat.toInt
  hea : h.dat.toInt ≤ h.hea.toInt
  stp : h.hea.toInt ≤ h.stp.toInt

theorem laid_of_ascending (hasc : ascending h.boundaries) : h.Laid := by
  simp only [boundaries, ascending, Bool.and_eq_true, decide_eq_true_eq] at hasc
  obtain ⟨hpublics, hnatives, hlibraries, hpubvars, htags, hnames, hcod, hdat, hhea, hstp, -⟩ :=
    hasc
  exact ⟨hpublics, hnatives, hlibraries, by omega, hdat, hhea, hstp⟩

end Header

/-- The code, data, heap and stack of a header that passes its checks. -/
structure Header.Ordered (h : Header) : Prop where
  header_le_cod : (Header.length : Int) ≤ h.cod.toInt
  cod_le_dat : h.cod.toInt ≤ h.dat.toInt
  dat_le_hea : h.dat.toInt ≤ h.hea.toInt
  hea_le_stp : h.hea.toInt ≤ h.stp.toInt
  code_aligned : (h.dat.toInt - h.cod.toInt) % Cell.width = 0

theorem Header.ordered_of_parse {image : Block} {h : Header} (hparse : Header.parse image = .ok h) :
    h.Ordered := by
  obtain ⟨-, -, hvalid⟩ := parse_eq_ok_iff.mp hparse
  obtain ⟨hpublics, hnatives, hlibraries, hcod, hdat, hhea, hstp⟩ :=
    laid_of_ascending hvalid.ordered
  exact ⟨by omega, hdat, hhea, hstp, hvalid.aligned⟩

theorem Block.resize_slice {image : Block} {size n : Nat} (hsize : size ≤ image.size) :
    (image.slice 0 size).resize n =
      image.slice 0 (min size n) ++ Array.replicate (n - min size n) 0 := by
  have hlength : (image.extract 0 size).size = size := by
    rw [Array.size_extract]
    omega
  unfold slice resize
  rw [hlength, Array.extract_extract, Nat.zero_add, Nat.zero_add, Nat.min_comm,
    show n - min size n = n - size by omega]

theorem Block.resize_whole (image : Block) (n : Nat) (hn : image.size ≤ n) :
    (image.slice 0 image.size).resize n = image ++ Array.replicate (n - image.size) 0 := by
  rw [resize_slice (Nat.le_refl _), Nat.min_eq_left hn, slice, Array.extract_size]

namespace Instance

variable {image : Block} {vm : Instance}

theorem load_ok (h : load image = .ok vm) :
    vm.header.Ordered ∧ vm.block.size = vm.header.stp.toNat := by
  obtain ⟨header, hparse, h⟩ := bind_eq_ok.mp h
  cases h
  exact ⟨Header.ordered_of_parse hparse, Block.size_resize ..⟩

/-- An image that is as long as its header says becomes the instance with its
    bytes, and zeros behind them. -/
theorem load_whole (hparse : Header.parse image = .ok vm.header)
    (hsize : image.size = vm.header.size.toNat) (hle : vm.header.size.toNat ≤ vm.header.stp.toNat)
    (hvm : vm = {
      header := vm.header
      block := image ++ Array.replicate (vm.header.stp.toNat - vm.header.size.toNat) 0
      regs := {
        hlw := vm.header.hea - vm.header.dat
        hea := vm.header.hea - vm.header.dat
        stp := vm.header.stp - vm.header.dat - 4
        stk := vm.header.stp - vm.header.dat - 4
        cip := vm.header.cip }
      pending := 0
      natives := #[] }) : load image = .ok vm := by
  rw [load, hparse, ok_bind, ← hsize, Block.resize_whole _ _ (by rw [hsize]; exact hle), hsize]
  exact congrArg Except.ok hvm.symm

/-- The code segment has the size that the header gives, which is less than 2³¹. -/
theorem size_code (h : load image = .ok vm) :
    vm.code.size = vm.codeSize ∧ vm.code.size < 0x80000000 := by
  obtain ⟨hordered, hblock⟩ := load_ok h
  obtain ⟨hcod, hdat, hhea, hstp, -⟩ := hordered
  have hlength : (Header.length : Int) = 56 := rfl
  have hlt : vm.header.dat.toInt < 0x80000000 := by
    have hbound := BitVec.toInt_lt (x := vm.header.dat)
    omega
  have hcod' := Cell.toInt_eq_toNat (c := vm.header.cod) (by omega)
  have hdat' := Cell.toInt_eq_toNat (c := vm.header.dat) (by omega)
  have hstp' := Cell.toInt_eq_toNat (c := vm.header.stp) (by omega)
  have hsize : vm.code.size = vm.header.dat.toNat - vm.header.cod.toNat := by
    rw [code, Block.slice, Array.size_extract, hblock]
    omega
  rw [hsize]
  unfold codeSize Header.codeSize
  omega

end Instance

end PawnNative
