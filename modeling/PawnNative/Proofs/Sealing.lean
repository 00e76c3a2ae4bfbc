import Mathlib.Data.List.Basic
import Mathlib.Data.List.Induction
import PawnNative.Proofs.Patching

/-! # Written, then sealed

    Code memory is written piece by piece, in any order, and then sealed. What it has
    to hold is read off the operations alone: the writes that count are those that
    come before the sealing and end inside of the memory, and what they leave is
    found by laying them over zeros, one after the other, as a function of the offset.

    `Written` ties a memory to the writes that it took. A write preserves it, whether
    it overlaps earlier ones, leaves a gap, is empty or is refused, so every sequence
    of operations does up to the sealing; behind it nothing changes at all.
-/

namespace PawnNative

/-- Bytes that a block did not have are zero after it was extended. -/
theorem Block.getElem?_resize {b : Block} {n j : Nat} (hj : j < n) :
    (b.resize n)[j]? = some ((b[j]?).getD 0) := by
  rw [Block.resize, Array.getElem?_append]
  by_cases hb : j < b.size
  · have hin : j < (b.extract 0 n).size := by
      rw [Array.size_extract]
      omega
    rw [if_pos hin, Array.getElem?_extract_of_lt (by omega), Array.getElem?_eq_getElem hb]
    simp only [Nat.zero_add, Option.getD_some]
  · have hout : ¬j < (b.extract 0 n).size := by
      rw [Array.size_extract]
      omega
    rw [if_neg hout, Array.getElem?_eq_none (Nat.le_of_not_lt hb), Array.getElem?_replicate, if_pos]
    · rfl
    · rw [Array.size_extract]
      omega

namespace CodeMemory

/-! ## Section 1: Operations -/

inductive Operation where
  | write (offset : Nat) (bytes : List Byte)
  | makeExecutable
  /-- Looks at the bytes, the length, the size or the state. -/
  | read
  deriving DecidableEq, Repr

/-- The memory after a call; one that fails leaves what was there. -/
def operate (m : CodeMemory) : Operation → CodeMemory
  | .write offset bytes =>
    match m.write offset bytes with
    | .ok m' => m'
    | .error _ => m
  | .makeExecutable => m.makeExecutable
  | .read => m

/-- The memory after calls, one after the other. -/
def operateAll (m : CodeMemory) (ops : List Operation) : CodeMemory := ops.foldl operate m

/-- Bytes that are written, and where. -/
structure Write where
  offset : Nat
  bytes : List Byte
  deriving DecidableEq, Repr

namespace Write

def stop (w : Write) : Nat := w.offset + w.bytes.length

/-- What memory holds at an offset after a write, by what it held before. -/
def leaves (w : Write) (held : Nat → Byte) (j : Nat) : Byte :=
  if w.offset ≤ j ∧ j < w.stop then w.bytes.getD (j - w.offset) 0 else held j

end Write

/-- What writes leave in memory that is zero. -/
def replay (ws : List Write) : Nat → Byte := ws.foldl (fun held w => w.leaves held) fun _ => 0

/-- The largest end of the writes. -/
def furthest (ws : List Write) : Nat := ws.foldl (fun n w => max n w.stop) 0

/-- The writes that count in memory of a size: up to the sealing, those that end inside. -/
def accepted (size : Nat) : List Operation → List Write
  | [] => []
  | .write offset bytes :: ops =>
    if offset + bytes.length ≤ size then ⟨offset, bytes⟩ :: accepted size ops else accepted size ops
  | .makeExecutable :: _ => []
  | .read :: ops => accepted size ops

/-- What memory is made for. -/
inductive Origin where
  /-- A number of bytes, to be written later. -/
  | ofSize (n : Nat)
  /-- A piece of code. -/
  | ofCode (code : Block)
  deriving DecidableEq, Repr

namespace Origin

/-- The bytes that are asked for. -/
def size : Origin → Nat
  | .ofSize n => n
  | .ofCode code => code.size

/-- Makes memory, in pages of this size. -/
def create (pageSize : Nat) : Origin → Except CodeMemoryError CodeMemory
  | .ofSize n => map n pageSize
  | .ofCode code => CodeMemory.ofCode code pageSize

/-- What is done to the memory while it is made. -/
def operations : Origin → List Operation
  | .ofSize _ => []
  | .ofCode code => [.write 0 code.toList, .makeExecutable]

end Origin

/-! ## Section 2: Writes laid over zeros -/

section
variable {ws : List Write} {w : Write} {j : Nat}

theorem replay_concat : replay (ws ++ [w]) = w.leaves (replay ws) := List.foldl_concat ..

theorem furthest_concat : furthest (ws ++ [w]) = max (furthest ws) w.stop := List.foldl_concat ..

/-- Behind the last end nothing was written. -/
theorem replay_of_furthest_le (h : furthest ws ≤ j) : replay ws j = 0 := by
  induction ws using List.reverseRecOn with
  | nil => rfl
  | append_singleton ws w ih =>
    rw [furthest_concat] at h
    rw [replay_concat, Write.leaves, if_neg (by omega), ih (by omega)]

end

/-! ## Section 3: Memory and the writes that it took -/

/-- Memory holds what the writes leave, up to their largest end. -/
structure Written (ws : List Write) (m : CodeMemory) : Prop where
  len : m.len = furthest ws
  bytes : ∀ j < m.len, m.bytes[j]? = some (replay ws j)
  fits : m.len ≤ m.size

variable {pageSize : Nat} {m m' : CodeMemory} {ws : List Write} {o : Nat} {bytes : List Byte}

theorem write_of_fits (hopen : m.executable = false) (hfits : o + bytes.length ≤ m.size) :
    m.write o bytes = .ok { m with
      bytes := (m.bytes.resize (max m.len (o + bytes.length))).overwrite o bytes } := by
  rw [write, hopen, if_neg Bool.false_ne_true, if_neg (Nat.not_lt.mpr hfits)]

theorem write_of_exceeds (hopen : m.executable = false) (hexceeds : m.size < o + bytes.length) :
    m.write o bytes = .error .invalidSize := by
  rw [write, hopen, if_neg Bool.false_ne_true, if_pos hexceeds]

theorem write_of_executable (hsealed : m.executable = true) :
    m.write o bytes = .error .alreadyExecutable := by
  rw [write, if_pos hsealed]

/-- **Step.** Memory that takes a write holds what it leaves. -/
theorem Written.write (h : Written ws m) (hfits : o + bytes.length ≤ m.size) :
    Written (ws ++ [⟨o, bytes⟩])
      { m with bytes := (m.bytes.resize (max m.len (o + bytes.length))).overwrite o bytes } := by
  have hlen : ((m.bytes.resize (max m.len (o + bytes.length))).overwrite o bytes).size =
      max m.len (o + bytes.length) := by
    rw [Block.size_overwrite, Block.size_resize]
  refine ⟨?_, fun j hj => ?_, ?_⟩
  · rw [furthest_concat, ← h.len]
    exact hlen
  · replace hj : j < max m.len (o + bytes.length) := Nat.lt_of_lt_of_eq hj hlen
    rw [replay_concat, Write.leaves, Write.stop]
    dsimp only
    split_ifs with hslot
    · obtain ⟨k, rfl⟩ := Nat.exists_eq_add_of_le hslot.1
      have hk : k < bytes.length := by omega
      rw [Block.getElem?_overwrite_slot _ (by rw [Block.size_resize]; omega) hk,
        Nat.add_sub_cancel_left, List.getD_eq_getElem?_getD, List.getElem?_eq_getElem hk]
      rfl
    · rw [Block.getElem?_overwrite_frame _ (by omega), Block.getElem?_resize hj]
      -- A byte outside of the write was written before, or lies in a gap behind all earlier writes.
      rcases Nat.lt_or_ge j m.len with hlt | hge
      · rw [h.bytes j hlt]
        rfl
      · rw [Array.getElem?_eq_none hge, replay_of_furthest_le (h.len ▸ hge)]
        rfl
  · exact Nat.le_trans (Nat.le_of_eq hlen) (Nat.max_le.mpr ⟨h.fits, hfits⟩)

theorem operate_of_error {e : CodeMemoryError} (h : m.write o bytes = .error e) :
    m.operate (.write o bytes) = m := by
  rw [operate, h]

/-- Nothing changes behind the sealing. -/
theorem operateAll_of_executable (hsealed : m.executable = true) (ops : List Operation) :
    m.operateAll ops = m := by
  have hseal : m.makeExecutable = m := by
    cases m
    cases hsealed
    rfl
  induction ops with
  | nil => rfl
  | cons op ops ih =>
    have hop : m.operate op = m := by
      cases op with
      | write o bytes => exact operate_of_error (write_of_executable hsealed)
      | makeExecutable => exact hseal
      | read => rfl
    rw [operateAll, List.foldl_cons, hop]
    exact ih

/-- **Run.** Memory that is still open holds, after operations, what the writes that count among
    them leave; it is sealed if one of them seals it. -/
theorem Written.operateAll (h : Written ws m) (hopen : m.executable = false)
    (ops : List Operation) :
    (m.operateAll ops).size = m.size ∧ Written (ws ++ accepted m.size ops) (m.operateAll ops) ∧
      ((m.operateAll ops).executable = true ↔ .makeExecutable ∈ ops) := by
  induction ops generalizing m ws with
  | nil =>
    refine ⟨rfl, by rwa [accepted, List.append_nil], ?_⟩
    simp [CodeMemory.operateAll, hopen]
  | cons op ops ih =>
    rw [CodeMemory.operateAll, List.foldl_cons, ← CodeMemory.operateAll, List.mem_cons]
    cases op with
    | write o bytes =>
      rw [accepted]
      split_ifs with hfits
      · have hwrite := write_of_fits hopen hfits
        have hrest := ih (h.write hfits) hopen
        rw [operate, hwrite]
        simpa [List.append_assoc] using hrest
      · have hwrite := write_of_exceeds hopen (Nat.lt_of_not_le hfits)
        rw [operate_of_error hwrite]
        simpa using ih h hopen
    | makeExecutable =>
      rw [operate, operateAll_of_executable rfl, accepted, List.append_nil]
      exact ⟨rfl, ⟨h.len, h.bytes, h.fits⟩, by simp [makeExecutable]⟩
    | read =>
      rw [operate, accepted]
      simpa using ih h hopen

/-! ## Section 4: Memory from its making on -/

/-- What memory is after operations. -/
structure WrittenThenSealed (pageSize : Nat) (ops : List Operation) (m : CodeMemory) : Prop where
  size_pos : 0 < m.size
  pages : pageSize ∣ m.size
  len_le : m.len ≤ m.size
  len_eq : m.len = furthest (accepted m.size ops)
  bytes_eq : m.bytes.toList = (List.range m.len).map (replay (accepted m.size ops))
  /-- Until it is sealed, memory takes the writes that end inside of it. -/
  takes : .makeExecutable ∉ ops → ∀ o bytes, (∃ m', m.write o bytes = .ok m') ↔
    o + bytes.length ≤ m.size
  refuses : .makeExecutable ∉ ops → ∀ o bytes, m.size < o + bytes.length →
    m.write o bytes = .error .invalidSize
  unchanged : ∀ o bytes e, m.write o bytes = .error e → m.operate (.write o bytes) = m
  /-- Once it is sealed, memory takes no write. -/
  closed : .makeExecutable ∈ ops → ∀ o bytes, m.write o bytes = .error .alreadyExecutable
  kept : .makeExecutable ∈ ops → ∀ later, (m.operateAll later).bytes = m.bytes ∧
    (m.operateAll later).len = m.len

theorem Written.toList_bytes (h : Written ws m) :
    m.bytes.toList = (List.range m.len).map (replay ws) := by
  refine List.ext_getElem? fun j => ?_
  rw [Array.getElem?_toList, List.getElem?_map]
  rcases Nat.lt_or_ge j m.len with hlt | hge
  · rw [h.bytes j hlt, List.getElem?_range hlt]
    rfl
  · rw [Array.getElem?_eq_none hge, List.getElem?_eq_none (by rwa [List.length_range])]
    rfl

theorem Written.writtenThenSealed (h : Written [] m) (hopen : m.executable = false)
    (hpos : 0 < m.size) (hpages : pageSize ∣ m.size) (ops : List Operation) :
    WrittenThenSealed pageSize ops (m.operateAll ops) := by
  obtain ⟨hsize, hwritten, hsealed⟩ := h.operateAll hopen ops
  rw [List.nil_append, ← hsize] at hwritten
  have hstill : .makeExecutable ∉ ops → (m.operateAll ops).executable = false := fun hops => by
    rwa [← hsealed, Bool.not_eq_true] at hops
  refine
    { size_pos := hsize ▸ hpos
      pages := hsize ▸ hpages
      len_le := hwritten.fits
      len_eq := hwritten.len
      bytes_eq := hwritten.toList_bytes
      takes := fun hops o bytes =>
      ⟨fun ⟨m', hm'⟩ => ?_, fun hfits => ⟨_, write_of_fits (hstill hops) hfits⟩⟩
      refuses := fun hops o bytes => write_of_exceeds (hstill hops)
      unchanged := fun o bytes e => operate_of_error
      closed := fun hops o bytes => write_of_executable (hsealed.mpr hops)
      kept := fun hops later => ?_ }
  · by_contra hexceeds
    rw [write_of_exceeds (hstill hops) (Nat.lt_of_not_le hexceeds)] at hm'
    cases hm'
  · rw [operateAll_of_executable (hsealed.mpr hops)]
    exact ⟨rfl, rfl⟩

/-- Mapped memory is empty and open, and has as many whole pages as are asked for. -/
theorem exists_map {n : Nat} (hpage : 0 < pageSize) (hn : 0 < n) : ∃ m, map n pageSize = .ok m ∧
    Written [] m ∧ m.executable = false ∧ n ≤ m.size ∧ pageSize ∣ m.size := by
  refine ⟨_, if_neg (Nat.pos_iff_ne_zero.mp hn), ⟨rfl, nofun, Nat.zero_le _⟩, rfl, ?_,
    Nat.dvd_mul_left ..⟩
  have hup := Nat.lt_div_mul_add hpage (a := n + pageSize - 1)
  show n ≤ (n + pageSize - 1) / pageSize * pageSize
  omega

/-- Memory is made by mapping it and, for a piece of code, by writing and sealing it. -/
theorem Origin.create_eq {origin : Origin} {m : CodeMemory}
    (hmap : map origin.size pageSize = .ok m)
    (hopen : m.executable = false) (hfits : origin.size ≤ m.size) :
    origin.create pageSize = .ok (m.operateAll origin.operations) := by
  cases origin with
  | ofSize n => exact hmap
  | ofCode code =>
    have hroom : 0 + code.toList.length ≤ m.size := by
      rw [Nat.zero_add, Array.length_toList]
      exact hfits
    have hwrite := write_of_fits hopen hroom
    simp only [create, CodeMemory.ofCode, operations, CodeMemory.operateAll, List.foldl_cons,
      List.foldl_nil, operate]
    rw [size] at hmap
    rw [hmap, ok_bind, hwrite]
    rfl

/-- **Code memory.** For pages of any size: none is made for nothing. Otherwise, after any
    operations: its size is the same number of whole pages; up to the sealing it takes exactly the
    writes that end inside of it, and a write that it refuses changes nothing; its length is the
    largest end of the writes taken, and its bytes are what they leave, one after the other, over
    zeros; from the sealing on every write is refused, and length and bytes stay as they are. Memory
    for a piece of code is written once and sealed when it is made. -/
theorem code_memory_is_written_then_sealed {pageSize : Nat} (hpage : 0 < pageSize)
    (origin : Origin) : (origin.size = 0 → origin.create pageSize = .error .invalidSize) ∧
      (0 < origin.size → ∃ m, origin.create pageSize = .ok m ∧ origin.size ≤ m.size ∧
        ∀ ops, (m.operateAll ops).size = m.size ∧
          WrittenThenSealed pageSize (origin.operations ++ ops) (m.operateAll ops)) := by
  constructor
  · intro hzero
    cases origin with
    | ofSize n => exact if_pos hzero
    | ofCode code =>
      have hmap : map code.size pageSize = .error .invalidSize := if_pos hzero
      rw [Origin.create, CodeMemory.ofCode, hmap]
      rfl
  · intro hpos
    obtain ⟨m, hmap, hwritten, hopen, hfits, hpages⟩ := exists_map hpage hpos
    have hsize : ∀ ops, (m.operateAll ops).size = m.size :=
      fun ops => (hwritten.operateAll hopen ops).1
    refine ⟨_, Origin.create_eq hmap hopen hfits, by rwa [hsize], fun ops => ?_⟩
    have happend : (m.operateAll origin.operations).operateAll ops =
        m.operateAll (origin.operations ++ ops) :=
      List.foldl_append.symm
    rw [happend, hsize, hsize]
    exact ⟨rfl, hwritten.writtenThenSealed hopen (Nat.lt_of_lt_of_le hpos hfits) hpages _⟩

/-- Two writes that overlap, one that does not fit, an empty one behind a gap, and
    one that comes too late. -/
def patchedPage : List Operation :=
  [.write 2 [0x90, 0x90], .write 3 [0xC3], .write 4096 [0x90], .write 6 [], .read, .makeExecutable,
    .write 0 [0x90]]

/-- The later of the two writes shows, the gaps are zero, and the page stays as it was sealed. -/
theorem patchedPage_is_sealed : ∃ m, map 100 = .ok m ∧ (m.operateAll patchedPage).len = 6 ∧
    (m.operateAll patchedPage).bytes.toList = [0, 0, 0x90, 0xC3, 0, 0] ∧
      (m.operateAll patchedPage).write 0 [0x90] = .error .alreadyExecutable := by
  obtain ⟨m, hm, -, hops⟩ :=
    (code_memory_is_written_then_sealed (show 0 < 4096 by decide) (.ofSize 100)).2 (by decide)
  have hsize : m.size = 4096 := by
    cases hm
    rfl
  obtain ⟨hsame, h⟩ := hops patchedPage
  have haccepted :
      accepted (m.operateAll patchedPage).size ((Origin.ofSize 100).operations ++ patchedPage) =
      [⟨2, [0x90, 0x90]⟩, ⟨3, [0xC3]⟩, ⟨6, []⟩] := by
    rw [hsame, hsize]
    rfl
  have hlen := h.len_eq
  have hbytes := h.bytes_eq
  rw [haccepted] at hlen hbytes
  refine ⟨m, hm, hlen, ?_, h.closed (by decide) 0 [0x90]⟩
  rw [hbytes, hlen]
  rfl

end CodeMemory

end PawnNative
