import Mathlib.Data.List.Induction
import Mathlib.Data.List.Nodup
import Mathlib.Tactic.Common
import PawnNative.Proofs.Building
import PawnNative.Proofs.Patching

/-! # Symbols and registered natives

    The tables of an image stay where they were loaded. A look-up scans them by name or
    by address, and a registration writes a handle into the record of a native, so every
    later look-up reads what registrations left behind. Handles count registrations:
    the record of a native holds the number of the last one under its name, and no two
    natives share a number.

    The invariant says that the front of the block is that of an image with these
    handles. A registration replaces one cell of it, and a run of registrations is
    known by the entries that the image imports.
-/

namespace PawnNative

/-! ## Section 1: Searching a table -/

theorem eq_of_key_eq {α β : Type} {l : List α} {key : α → β} (hdistinct : (l.map key).Nodup)
    {i j : Nat} {x y : α}
    (hx : l[i]? = some x) (hy : l[j]? = some y) (hkey : key y = key x) : j = i := by
  refine (List.getElem?_inj ?_ hdistinct).mp ?_
  · rw [List.length_map]
    exact (List.getElem?_eq_some_iff.mp hy).1
  · rw [List.getElem?_map, List.getElem?_map, hx, hy, Option.map_some, Option.map_some, hkey]

theorem find?_range_of_only {α β : Type} [BEq β] [LawfulBEq β] {l : List α} {key : α → β}
    {key? : Nat → Option β}
    {i : Nat} {x : α} (hkeys : ∀ j y, l[j]? = some y → key? j = some (key y)) (hx : l[i]? = some x)
    (honly : ∀ j y, l[j]? = some y → key y = key x → j = i) :
    (List.range l.length).find? (fun j => key? j == some (key x)) = some i := by
  obtain ⟨hi, -⟩ := List.getElem?_eq_some_iff.mp hx
  refine List.find?_range_eq_some.mpr ⟨?_, List.mem_range.mpr hi, fun j hj => ?_⟩
  · rw [hkeys i x hx]
    exact beq_self_eq_true _
  · have hy : l[j]? = some l[j] := List.getElem?_eq_getElem (by omega)
    rw [hkeys j _ hy, Bool.not_eq_true', beq_eq_false_iff_ne, Option.some_inj.ne]
    exact fun hkey => absurd (honly j _ hy hkey) (Nat.ne_of_lt hj)

namespace SymbolTable.Lists

variable {t : SymbolTable} {b : Block} {entries : List (String × Cell)} {i : Nat}
  {e : String × Cell}

theorem find?_eq_some (h : t.Lists b entries) (he : entries[i]? = some e)
    (honly : ∀ j e', entries[j]? = some e' → e'.1 = e.1 → j = i) : t.find? b e.1 = some i := by
  rw [find?, h.length]
  exact find?_range_of_only h.name he honly

theorem indexOf?_eq_some (h : t.Lists b entries) (he : entries[i]? = some e)
    (honly : ∀ j e', entries[j]? = some e' → e'.2 = e.2 → j = i) : t.indexOf? b e.2 = some i := by
  rw [indexOf?, h.length]
  exact find?_range_of_only h.address he honly

theorem find?_eq_none {name : String} (h : t.Lists b entries) (hname : ∀ e ∈ entries, e.1 ≠ name) :
    t.find? b name = none := by
  rw [find?, List.find?_eq_none]
  intro j hj
  rw [List.mem_range, h.length] at hj
  rw [h.name j _ (List.getElem?_eq_getElem hj), beq_iff_eq, Option.some_inj]
  exact hname _ (List.getElem_mem hj)

end SymbolTable.Lists

/-! ## Section 2: Handles -/

section Handles

variable {l : List (String × Native)} {e : String × Native} {s : String} {f : Native}

/-- The number of the last entry under a name, counted from one; zero if there is none. -/
def numberOf (l : List (String × Native)) (s : String) : Nat :=
  l.length - l.reverse.findIdx (·.1 == s)

/-- The function of the last entry under a name. -/
def latest? (l : List (String × Native)) (s : String) : Option Native :=
  (l.reverse.find? (·.1 == s)).map (·.2)

theorem numberOf_concat :
    numberOf (l ++ [e]) s = if e.1 = s then l.length + 1 else numberOf l s := by
  rw [numberOf, List.reverse_concat, List.findIdx_cons, List.length_append, List.length_singleton]
  by_cases he : e.1 = s
  · rw [if_pos he, beq_iff_eq.mpr he]
    rfl
  · rw [if_neg he, beq_eq_false_iff_ne.mpr he]
    exact Nat.add_sub_add_right ..

theorem numberOf_le (l : List (String × Native)) (s : String) : numberOf l s ≤ l.length :=
  Nat.sub_le ..

theorem latest?_concat : latest? (l ++ [e]) s = if e.1 = s then some e.2 else latest? l s := by
  rw [latest?, List.reverse_concat, List.find?_cons]
  by_cases he : e.1 = s
  · rw [if_pos he, beq_iff_eq.mpr he]
    rfl
  · rw [if_neg he, beq_eq_false_iff_ne.mpr he]
    rfl

theorem latest?_eq_none_iff : latest? l s = none ↔ ∀ e ∈ l, e.1 ≠ s := by
  simp [latest?]

theorem numberOf_eq_zero (h : latest? l s = none) : numberOf l s = 0 := by
  induction l using List.reverseRecOn with
  | nil => rfl
  | append_singleton l e ih =>
    rw [latest?_concat] at h
    split_ifs at h with he
    rw [numberOf_concat, if_neg he]
    exact ih h

/-- The handle of a name counts up to its last entry. -/
theorem exists_numberOf (h : latest? l s = some f) :
    ∃ k, numberOf l s = k + 1 ∧ l[k]? = some (s, f) := by
  induction l using List.reverseRecOn with
  | nil => cases h
  | append_singleton l e ih =>
    rw [latest?_concat] at h
    rw [numberOf_concat]
    split_ifs at h ⊢ with he
    · obtain rfl := he
      cases h
      exact ⟨l.length, rfl, List.getElem?_concat_length ..⟩
    · obtain ⟨k, hk, hget⟩ := ih h
      exact ⟨k, hk, by rw [List.getElem?_append_left (List.getElem?_eq_some_iff.mp hget).1, hget]⟩

/-- The handle in the record of a native, once these entries are registered. -/
def handleOf (l : List (String × Native)) (s : String) : Cell := BitVec.ofNat 32 (numberOf l s)

/-- Different names have different handles, unless neither is registered. -/
theorem eq_of_handleOf_eq {s' : String} (hlength : l.length < 0x80000000) (h : latest? l s = some f)
    (heq : handleOf l s' = handleOf l s) : s' = s := by
  obtain ⟨k, hnumber, hget⟩ := exists_numberOf h
  have hle := numberOf_le l s
  have hle' := numberOf_le l s'
  have hnumber' : numberOf l s' = k + 1 := by
    have hnat := congrArg BitVec.toNat heq
    rw [handleOf, handleOf, Cell.toNat_ofNat (by omega), Cell.toNat_ofNat (by omega)] at hnat
    omega
  cases h' : latest? l s' with
  | none =>
    rw [numberOf_eq_zero h'] at hnumber'
    cases hnumber'
  | some f' =>
    obtain ⟨k', hk', hget'⟩ := exists_numberOf h'
    obtain rfl : k' = k := by omega
    rw [hget] at hget'
    cases hget'
    rfl

/-- Names that are not imported take no part. -/
theorem latest?_filter (imported : String → Bool) (hs : imported s) :
    latest? (l.filter fun e => imported e.1) s = latest? l s := by
  rw [latest?, latest?, ← List.filter_reverse, List.find?_filter]
  congr 2
  funext e
  by_cases he : e.1 = s
  · simp [he, hs]
  · simp [he]

end Handles

/-! ## Section 3: Writing a handle -/

namespace Contents

variable {c : Contents}

/-- The image in which natives have these handles. -/
def withHandles (c : Contents) (handle : String → Cell) : Contents := { c with handle }

section
variable (c) (handle : String → Cell)

theorem addresses_withHandles :
    (c.withHandles handle).addresses = c.publics.map (·.2) ++ c.natives.map handle := rfl

theorem records_withHandles : (c.withHandles handle).records =
    (c.withHandles handle).addresses.zip (Builder.nameOffsets (c.namesAt + 2) c.names) := rfl

theorem head_withHandles : (c.withHandles handle).head =
    c.header.bytes ++ (c.withHandles handle).records.flatMap recordBytes ++ c.table := rfl

theorem cod_withHandles : (c.withHandles handle).cod = c.cod := rfl

end

/-- Around the handle of a native, an image is the same for all handles of it. -/
theorem head_eq {i : Nat} {s : String} (hs : c.natives[i]? = some s) (hdistinct : c.natives.Nodup)
    (handle : String → Cell) :
    ∃ before after : List Byte, before.length = c.nativesAt + i * Header.symbolLength ∧
      ∀ handle' : String → Cell, (∀ s', s' ≠ s → handle' s' = handle s') →
        (c.withHandles handle').head = before ++ ((handle' s).bytes ++ after) := by
  obtain ⟨natives₁, natives₂, hnatives, hlength⟩ := exists_split hs
  have hne : ∀ s' ∈ natives₁ ++ natives₂, s' ≠ s := by
    rw [hnatives, List.nodup_middle, List.nodup_cons] at hdistinct
    rintro s' hs' rfl
    exact hdistinct.1 hs'
  -- The offsets of the names are split where the native stands.
  have hoffset : c.publics.length + i < (Builder.nameOffsets (c.namesAt + 2) c.names).length := by
    rw [Builder.length_nameOffsets, names, List.length_append, List.length_map]
    exact Nat.add_lt_add_left (List.getElem?_eq_some_iff.mp hs).1 _
  obtain ⟨o, ho⟩ : ∃ o, (Builder.nameOffsets (c.namesAt + 2) c.names)[c.publics.length + i]? =
      some o :=
    ⟨_, List.getElem?_eq_getElem hoffset⟩
  obtain ⟨offsets₁, offsets₂, hoffsets, hlength'⟩ := exists_split ho
  let front := c.publics.map (·.2) ++ natives₁.map handle
  have hfront : front.length = offsets₁.length := by
    rw [List.length_append, List.length_map, List.length_map, hlength, hlength']
  refine ⟨c.header.bytes ++ (front.zip offsets₁).flatMap recordBytes,
    Cell.bytes (BitVec.ofNat 32 o) ++ (((natives₂.map handle).zip offsets₂).flatMap
      recordBytes ++ c.table),
    ?_, fun handle' hhandle => ?_⟩
  · rw [List.length_append, Header.length_bytes, length_recordsBytes, List.length_zip,
      hfront, hlength', Nat.min_self, Nat.add_mul, nativesAt, Nat.add_assoc]
  · have haddresses : (c.withHandles handle').addresses =
        front ++ handle' s :: natives₂.map handle := by
      have hmap : ∀ l : List String, (∀ s' ∈ l, s' ∈ natives₁ ++ natives₂) →
          l.map handle' = l.map handle :=
        fun l hl => List.map_congr_left fun s' hs' => hhandle s' (hne s' (hl s' hs'))
      rw [addresses_withHandles, hnatives, List.map_append, List.map_cons, hmap natives₁ fun _ =>
        List.mem_append_left _, hmap natives₂ fun _ => List.mem_append_right _, ← List.append_assoc]
    have hrecords : (c.withHandles handle').records =
        front.zip offsets₁ ++ (handle' s, o) :: (natives₂.map handle).zip offsets₂ := by
      rw [records_withHandles, haddresses, hoffsets, List.zip_append hfront, List.zip_cons_cons]
    rw [head_withHandles, hrecords, List.flatMap_append, List.flatMap_cons, recordBytes]
    simp only [List.append_assoc]

theorem setCell?_head {b : Block} {tail : List Byte} {i : Nat} {s : String}
    {handle handle' : String → Cell} (hs : c.natives[i]? = some s) (hdistinct : c.natives.Nodup)
    (hblock : b.toList = (c.withHandles handle).head ++ tail) (hhandle : ∀ s', s' ≠ s →
      handle' s' = handle s') :
    ∃ b', b.setCell? (c.nativesAt + i * Header.symbolLength) (handle' s) = some b' ∧
      b'.toList = (c.withHandles handle').head ++ tail := by
  obtain ⟨before, after, hlength, hhead⟩ := head_eq hs hdistinct handle
  have hold : b = (before ++ ((handle s).bytes ++ (after ++ tail))).toArray := by
    apply Array.toList_inj.mp
    rw [hblock, hhead handle fun _ _ => rfl]
    simp only [List.append_assoc]
  have hfit : before.length + 4 ≤ b.size := by
    rw [hold, List.size_toArray, List.length_append, List.length_append, Cell.length_bytes,
      show Cell.width = 4 from rfl]
    omega
  refine ⟨b.overwrite before.length (handle' s).bytes, hlength ▸ if_pos hfit, ?_⟩
  rw [hold, Block.overwrite_part before (after ++ tail)
      (by rw [Cell.length_bytes, Cell.length_bytes]),
    hhead handle' hhandle]
  simp only [List.append_assoc]

end Contents

/-! ## Section 4: Registering natives -/

/-- The names of natives are read as they were written, and differ from each other. -/
structure Contents.Searchable (c : Contents) : Prop where
  cod : c.cod < 0x80000000
  nul : ∀ s ∈ c.names, 0 ∉ Text.utf8 s
  natives : c.natives.Nodup

theorem Contents.Searchable.index_eq {c : Contents} (hc : c.Searchable) {i j : Nat} {s : String}
    (hi : c.natives[i]? = some s) (hj : c.natives[j]? = some s) : j = i :=
  (List.getElem?_inj (List.getElem?_eq_some_iff.mp hj).1 hc.natives).mp (hj.trans hi.symm)

/-- A call that registers natives. -/
inductive Registration where
  | register (name : String) (native : Native)
  | registerAll (natives : List (String × Native))

def Registration.entries : Registration → List (String × Native)
  | .register name native => [(name, native)]
  | .registerAll natives => natives

namespace Instance

def afterRegistration (vm : Instance) : Registration → Instance
  | .register name native =>
    match vm.register name native with
    | .ok vm' => vm'
    | .error _ => vm
  | .registerAll natives => (vm.registerAll natives).2

def afterRegistrations (vm : Instance) (rs : List Registration) : Instance :=
  rs.foldl afterRegistration vm

theorem registerAll_concat (vm : Instance) (natives : List (String × Native))
    (e : String × Native) : vm.registerAll (natives ++ [e]) =
      match (vm.registerAll natives).2.register e.1 e.2 with
      | .ok vm' => ((vm.registerAll natives).1 + 1, vm')
      | .error _ => vm.registerAll natives := by
  rw [registerAll, List.foldl_append]
  rfl

/-- The front of the block is that of an image in which natives have the numbers of their last
    entries as handles. -/
structure Binds (vm : Instance) (c : Contents) (entries : List (String × Native)) : Prop where
  header : vm.header = c.header
  block : ∃ tail, vm.block.toList = (c.withHandles (handleOf entries)).head ++ tail
  natives : vm.natives.toList = entries.map (·.2)

namespace Binds

variable {vm : Instance} {c : Contents} {entries : List (String × Native)} {name : String}

theorem getElem?_bindings (entries : List (String × Native)) {i : Nat}
    (hname : c.natives[i]? = some name) :
    (c.natives.map fun s => (s, handleOf entries s))[i]? = some (name, handleOf entries name) := by
  rw [List.getElem?_map, hname]
  rfl

variable (h : vm.Binds c entries) (hc : c.Searchable)
include h hc

theorem publics_lists :
    vm.header.publicTable.Lists vm.block c.publics := by
  obtain ⟨tail, hblock⟩ := h.block
  rw [h.header]
  refine Contents.publicTable_lists (c := c.withHandles (handleOf entries)) ?_ hblock hc.nul
  rw [Contents.cod_withHandles]
  exact hc.cod

theorem natives_lists :
    vm.header.nativeTable.Lists vm.block (c.natives.map fun s => (s, handleOf entries s)) := by
  obtain ⟨tail, hblock⟩ := h.block
  rw [h.header]
  refine Contents.nativeTable_lists (c := c.withHandles (handleOf entries)) ?_ hblock hc.nul
  rw [Contents.cod_withHandles]
  exact hc.cod

theorem findNative?_eq_some {i : Nat}
    (hname : c.natives[i]? = some name) : vm.findNative? name = some i := by
  refine (h.natives_lists hc).find?_eq_some (getElem?_bindings entries hname) fun j e he heq => ?_
  obtain ⟨s, hs, rfl⟩ := Option.map_eq_some_iff.mp (List.getElem?_map.symm.trans he)
  obtain rfl : s = name := heq
  exact hc.index_eq hname hs

theorem findNative?_eq_none (hname : name ∉ c.natives) :
    vm.findNative? name = none := by
  refine (h.natives_lists hc).find?_eq_none fun e he heq => hname ?_
  obtain ⟨s, hs, rfl⟩ := List.mem_map.mp he
  exact heq ▸ hs

/-- **Step.** A native that the image imports gets the next handle. -/
theorem register (hname : name ∈ c.natives) (native : Native) :
    ∃ vm', vm.register name native = .ok vm' ∧ vm'.Binds c (entries ++ [(name, native)]) := by
  obtain ⟨i, hi⟩ := List.mem_iff_getElem?.mp hname
  obtain ⟨tail, hblock⟩ := h.block
  have hsize : (vm.natives.push native).size = entries.length + 1 := by
    rw [Array.size_push, ← Array.length_toList, h.natives, List.length_map]
  have hother : ∀ s, s ≠ name → handleOf (entries ++ [(name, native)]) s = handleOf entries s :=
    fun s hs => by
    rw [handleOf, numberOf_concat, if_neg (Ne.symm hs), handleOf]
  have hself : handleOf (entries ++ [(name, native)]) name =
      BitVec.ofNat 32 (vm.natives.push native).size := by
    rw [handleOf, numberOf_concat, if_pos rfl, hsize]
  obtain ⟨block, hset, hblock'⟩ := Contents.setCell?_head hi hc.natives hblock hother
  rw [hself] at hset
  have hoffset : vm.header.nativeTable.recordOffset? i =
      some (c.nativesAt + i * Header.symbolLength) := by
    rw [h.header, Contents.nativeTable_eq hc.cod]
    exact if_pos (List.getElem?_eq_some_iff.mp hi).1
  refine ⟨{ vm with block, natives := vm.natives.push native }, ?_, h.header, ⟨tail, hblock'⟩, ?_⟩
  · simp only [Instance.register, h.findNative?_eq_some hc hi, hoffset, hset]
  · rw [Array.toList_push, h.natives, List.map_append]
    rfl

theorem register_eq_error (hname : name ∉ c.natives)
    (native : Native) : vm.register name native = .error .notFound := by
  simp only [Instance.register, h.findNative?_eq_none hc hname]

/-- **Run.** The natives of a list are bound one after the other, and counted. -/
theorem registerAll (natives : List (String × Native)) :
    (vm.registerAll natives).1 = natives.countP (·.1 ∈ c.natives) ∧
      (vm.registerAll natives).2.Binds c (entries ++ natives.filter (·.1 ∈ c.natives)) := by
  induction natives using List.reverseRecOn with
  | nil =>
    rw [List.filter_nil, List.append_nil]
    exact ⟨rfl, h⟩
  | append_singleton natives e ih =>
    obtain ⟨hcount, hbinds⟩ := ih
    rw [registerAll_concat, List.countP_append, List.filter_append, List.countP_singleton,
      List.filter_singleton, ← List.append_assoc, ← hcount]
    by_cases hname : e.1 ∈ c.natives
    · obtain ⟨vm', hregister, hbinds'⟩ := hbinds.register hc hname e.2
      rw [hregister, if_pos (decide_eq_true hname), decide_eq_true hname]
      exact ⟨rfl, hbinds'⟩
    · rw [hbinds.register_eq_error hc hname, if_neg (by simpa using hname), decide_eq_false hname,
        cond_false, List.append_nil]
      exact ⟨rfl, hbinds⟩

/-- **Step.** A call registers the entries that the image imports. -/
theorem afterRegistration (r : Registration) :
    (vm.afterRegistration r).Binds c (entries ++ r.entries.filter (·.1 ∈ c.natives)) := by
  cases r with
  | register name native =>
    rw [Instance.afterRegistration, Registration.entries, List.filter_singleton]
    by_cases hname : name ∈ c.natives
    · obtain ⟨vm', hregister, hbinds⟩ := h.register hc hname native
      rw [hregister, decide_eq_true hname]
      exact hbinds
    · rw [h.register_eq_error hc hname, decide_eq_false hname, cond_false, List.append_nil]
      exact h
  | registerAll natives => exact (h.registerAll hc natives).2

/-- **Run.** After any calls, natives are bound by the entries that the image imports. -/
theorem afterRegistrations (rs : List Registration) :
    (vm.afterRegistrations rs).Binds c
      (entries ++ (rs.flatMap Registration.entries).filter (·.1 ∈ c.natives)) := by
  induction rs generalizing vm entries with
  | nil =>
    rw [List.flatMap_nil, List.filter_nil, List.append_nil]
    exact h
  | cons r rs ih =>
    rw [List.flatMap_cons, List.filter_append, ← List.append_assoc]
    exact ih (h.afterRegistration hc r)

/-! ### Look-ups of natives -/

section Natives

variable {i : Nat} {native : Native}

theorem nativeHandle?_eq (hname : c.natives[i]? = some name) :
    vm.nativeHandle? i = some (handleOf entries name) :=
  (h.natives_lists hc).address i _ (getElem?_bindings entries hname)

/-- The number of a registration is the handle of one native only. -/
theorem nativeIndex?_eq (hlength : entries.length < 0x80000000)
    (hname : c.natives[i]? = some name) (hlatest : latest? entries name = some native) :
    vm.nativeIndex? (handleOf entries name) = some i := by
  refine (h.natives_lists hc).indexOf?_eq_some (getElem?_bindings entries hname) fun j e he heq =>
    ?_
  obtain ⟨s, hs, rfl⟩ := Option.map_eq_some_iff.mp (List.getElem?_map.symm.trans he)
  obtain rfl : s = name := eq_of_handleOf_eq hlength hlatest heq
  exact hc.index_eq hname hs

omit hc in
theorem nativeOf?_eq (hlength : entries.length < 0x80000000)
    (hlatest : latest? entries name = some native) : vm.nativeOf? (handleOf entries name) =
      some native := by
  obtain ⟨k, hnumber, hget⟩ := exists_numberOf hlatest
  have hle := numberOf_le entries name
  have hint : (handleOf entries name).toInt = k + 1 := by
    rw [handleOf, Cell.toInt_ofNat (by omega), hnumber]
    rfl
  have hnat : (handleOf entries name).toNat = k + 1 := by
    rw [handleOf, Cell.toNat_ofNat (by omega), hnumber]
  rw [nativeOf?, if_neg (by omega), hnat, Nat.add_sub_cancel, ← Array.getElem?_toList, h.natives,
    List.getElem?_map, hget]
  rfl

end Natives

end Binds

end Instance

/-! ## Section 5: Images of a builder -/

/-- What look-ups find in an image of a builder, and what registrations answer, once these names and
    functions were registered. -/
structure Instance.Resolves (vm : Instance) (b : Builder) (entries : List (String × Native)) :
    Prop where
  /-- A public function is found by its address and by its name. -/
  publics : vm.header.publicTable.len = b.publics.size ∧ ∀ i < b.publics.size, ∃ name address,
    (name, address) ∈ b.declared ∧ vm.publicName? i = some name ∧
    vm.publicAddress? i = some address ∧
    vm.publicIndex? address = some i ∧ vm.findPublic? name = some i
  natives : vm.header.nativeTable.len = b.natives.size ∧
    ∀ (i : Nat) s, b.natives.toList[i]? = some s →
    vm.nativeName? i = some s ∧ vm.findNative? s = some i
  unbound : ∀ (i : Nat) s, b.natives.toList[i]? = some s → (∀ e ∈ entries, e.1 ≠ s) →
    vm.nativeHandle? i = some 0
  /-- Handles are positive cells, so there are 2³¹ - 1 of them. -/
  bound : entries.countP (·.1 ∈ b.natives.toList) < 0x80000000 →
    ∀ (i : Nat) s f, b.natives.toList[i]? = some s → latest? entries s = some f → ∃ handle,
      vm.nativeHandle? i = some handle ∧ vm.nativeIndex? handle = some i ∧
      vm.nativeOf? handle = some f
  register : ∀ name native, (name ∈ b.natives.toList → ∃ vm', vm.register name native = .ok vm') ∧
    (name ∉ b.natives.toList → vm.register name native = .error .notFound ∧
      vm.afterRegistration (.register name native) = vm)
  registerAll : ∀ natives, (vm.registerAll natives).1 = natives.countP (·.1 ∈ b.natives.toList)

namespace Builder

variable {b : Builder} {image : Block} {vm : Instance}

theorem image_of_build (hbuild : b.build = .ok image) : image = b.contents.image.toArray := by
  rw [build_eq] at hbuild
  generalize b.unbound? _ = l at hbuild
  cases l with
  | none => exact (Except.ok.inj hbuild).symm
  | some l => cases hbuild

theorem publics_perm (b : Builder) : b.contents.publics.Perm b.declared := List.mergeSort_perm ..

theorem names_declared (b : Builder) : b.declared.map (·.1) = b.publics.toList.map (·.1) := by
  rw [declared, List.map_map]
  rfl

/-- A built image binds no natives when it is loaded. -/
theorem binds_of_load (hbuild : b.build = .ok image) (hload : Instance.load image = .ok vm)
    (hcod : b.contents.cod < 0x100000000) : b.contents.cod < 0x80000000 ∧
    vm.Binds b.contents [] := by
  rw [image_of_build hbuild] at hload
  obtain ⟨hcod', hheader, hnatives, hblock⟩ := Contents.front_of_load hload hcod
  exact ⟨hcod', hheader, hblock, by rw [hnatives]; rfl⟩

end Builder

/-- **Duality.** Let an image have names without zero bytes, different names of natives, and
    public functions with different names and addresses, and let its header, tables and
    names lie in the range of 32-bit offsets. Whatever was registered after it was loaded,
    look-ups invert each other. -/
theorem registrations_keep_symbols_dual {b : Builder} {image : Block} {vm : Instance}
    (hbuild : b.build = .ok image) (hload : Instance.load image = .ok vm)
    (hcod : b.contents.cod < 0x100000000)
    (hnul : ∀ s ∈ b.publics.toList.map (·.1) ++ b.natives.toList, 0 ∉ Text.utf8 s)
    (hnatives : b.natives.toList.Nodup) (hpublics : (b.publics.toList.map (·.1)).Nodup)
    (haddresses : (b.declared.map (·.2)).Nodup) (rs : List Registration) :
    (vm.afterRegistrations rs).Resolves b (rs.flatMap Registration.entries) := by
  obtain ⟨hcod', hstart⟩ := Builder.binds_of_load hbuild hload hcod
  have hnames := b.publics_perm.map (·.1)
  have hc : b.contents.Searchable := by
    refine ⟨hcod', fun s hs => hnul s ?_, hnatives⟩
    rw [← b.names_declared]
    exact (hnames.append_right _).mem_iff.mp hs
  have h := hstart.afterRegistrations hc rs
  rw [List.nil_append] at h
  -- From here on only the bindings count, not how they came about.
  generalize vm.afterRegistrations rs = vm' at h ⊢
  generalize rs.flatMap Registration.entries = entries at h ⊢
  -- For a name that is imported, registrations under other names can be left out.
  have hfilter : ∀ (i : Nat) s, b.natives.toList[i]? = some s →
      latest? (entries.filter (·.1 ∈ b.contents.natives)) s = latest? entries s := fun i s hs =>
    latest?_filter (fun s => decide (s ∈ b.contents.natives))
      (decide_eq_true (List.mem_of_getElem? hs))
  constructor
  case publics =>
    have hlists := h.publics_lists hc
    have hlength : b.contents.publics.length = b.publics.size := by
      rw [b.publics_perm.length_eq, Builder.declared, List.length_map, Array.length_toList]
    refine ⟨hlists.length.trans hlength, fun i hi => ?_⟩
    obtain ⟨e, he⟩ : ∃ e, b.contents.publics[i]? = some e :=
      ⟨_, List.getElem?_eq_getElem (hlength ▸ hi)⟩
    have hmem := b.publics_perm.mem_iff.mp (List.mem_of_getElem? he)
    refine ⟨e.1, e.2, hmem, hlists.name i e he, hlists.address i e he,
      hlists.indexOf?_eq_some he fun j e' => ?_, hlists.find?_eq_some he fun j e' => ?_⟩
    · exact eq_of_key_eq ((b.publics_perm.map _).nodup_iff.mpr haddresses) he
    · exact eq_of_key_eq (hnames.nodup_iff.mpr (b.names_declared ▸ hpublics)) he
  case natives =>
    have hlists := h.natives_lists hc
    refine ⟨hlists.length.trans (List.length_map _), fun i s hs =>
      ⟨?_, h.findNative?_eq_some hc hs⟩⟩
    exact hlists.name i (s, _) (Instance.Binds.getElem?_bindings _ hs)
  case unbound =>
    intro i s hs hnone
    have hlatest := (hfilter i s hs).trans (latest?_eq_none_iff.mpr hnone)
    rw [h.nativeHandle?_eq hc hs, handleOf, numberOf_eq_zero hlatest]
    rfl
  case bound =>
    intro hcount i s f hs hlatest
    rw [List.countP_eq_length_filter] at hcount
    rw [← hfilter i s hs] at hlatest
    exact ⟨_, h.nativeHandle?_eq hc hs, h.nativeIndex?_eq hc hcount hs hlatest,
      h.nativeOf?_eq hcount hlatest⟩
  case register =>
    intro name native
    refine ⟨fun hname => ?_, fun hname => ?_⟩
    · obtain ⟨vm'', hregister, -⟩ := h.register hc hname native
      exact ⟨vm'', hregister⟩
    · have hregister := h.register_eq_error hc hname native
      refine ⟨hregister, ?_⟩
      rw [Instance.afterRegistration, hregister]
  case registerAll => exact fun natives => (h.registerAll hc natives).1

/-- Three imports, and two public functions that are declared in the order of their names. -/
def threeImports : Builder where
  code := #[Opcode.proc.code, Opcode.retn.code]
  labels := #[some 4, some 0]
  publics := #[("a", ⟨0⟩), ("b", ⟨1⟩)]
  natives := #["print", "get", "idle"]

/-- One import is registered twice, one never, and two names are not imported. -/
def repeatedRegistrations : List Registration :=
  [.register "get" fun _ => .done 1,
   .registerAll [("print", fun _ => .done 1), ("other", fun _ => .done 1),
     ("get", fun _ => .done 2)],
   .register "missing" fun _ => .done 1]

theorem threeImports_are_dual : ∃ image vm₀ vm, threeImports.build = .ok image ∧
    Instance.load image = .ok vm₀ ∧ vm₀.afterRegistrations repeatedRegistrations = vm ∧
    (∃ name address, vm.publicName? 0 = some name ∧ vm.findPublic? name = some 0 ∧
      vm.publicAddress? 0 = some address ∧ vm.publicIndex? address = some 0) ∧
    (∃ handle, vm.nativeHandle? 1 = some handle ∧ vm.nativeIndex? handle = some 1 ∧
      vm.nativeOf? handle = some fun _ => .done 2) ∧
    vm.nativeHandle? 2 = some 0 ∧ (vm.register "missing" fun _ => .done 1) = .error .notFound ∧
    (vm.registerAll [("idle", fun _ => .done 3), ("other", fun _ => .done 3)]).1 = 1 := by
  have hstp : threeImports.contents.stp < 0x80000000 := by
    rw [Builder.stp_contents]
    decide +kernel
  have hcod : threeImports.contents.cod < 0x100000000 := by
    obtain ⟨-, -, -, hdat, hhea, hle⟩ := threeImports.contents.offsets_le
    omega
  obtain ⟨vm, hload, -⟩ := Contents.load_image (by decide) hstp
  have hbuild : threeImports.build = .ok threeImports.contents.image.toArray :=
    threeImports.build_eq
  have h := registrations_keep_symbols_dual hbuild hload hcod (by decide) (by decide) (by decide)
    (by decide) repeatedRegistrations
  obtain ⟨name, address, -, hname, haddress, hindex, hfind⟩ := h.publics.2 0 (by decide)
  refine ⟨_, vm, _, hbuild, hload, rfl, ⟨name, address, hname, hfind, haddress, hindex⟩,
    ?_, ?_, ?_, ?_⟩
  · exact h.bound (by decide) 1 "get" _ rfl rfl
  · exact h.unbound 2 "idle" rfl (by simp [repeatedRegistrations, Registration.entries])
  · exact ((h.register "missing" _).2 (by decide)).1
  · exact h.registerAll _

end PawnNative
