import PawnNative.Cell

/-! # Blocks of bytes

    An image is one block of bytes. Reads and writes name an offset from its
    start; an access that does not lie wholly inside the block has no result.
-/

namespace PawnNative

abbrev Block := Array Byte

namespace Block

def byte? (b : Block) (o : Nat) : Option Byte := b[o]?

def half? (b : Block) (o : Nat) : Option Half :=
  if o + 2 ≤ b.size then some (Half.ofBytes (b.getD o 0) (b.getD (o + 1) 0)) else none

def cell? (b : Block) (o : Nat) : Option Cell :=
  if o + 4 ≤ b.size then
    some (Cell.ofBytes (b.getD o 0) (b.getD (o + 1) 0) (b.getD (o + 2) 0) (b.getD (o + 3) 0))
  else none

def setByte? (b : Block) (o : Nat) (v : Byte) : Option Block :=
  if o < b.size then some (b.setIfInBounds o v) else none

def setHalf? (b : Block) (o : Nat) (v : Half) : Option Block :=
  if o + 2 ≤ b.size then
    some ((b.setIfInBounds o (v.extractLsb' 0 8)).setIfInBounds (o + 1) (v.extractLsb' 8 8))
  else none

def setCell? (b : Block) (o : Nat) (v : Cell) : Option Block :=
  if o + 4 ≤ b.size then
    some ((((b.setIfInBounds o (v.byte 0)).setIfInBounds (o + 1) (v.byte 1)).setIfInBounds
      (o + 2) (v.byte 2)).setIfInBounds (o + 3) (v.byte 3))
  else none

/-- The bytes from `start` up to, and without, `stop`, cut to the block. -/
def slice (b : Block) (start stop : Nat) : Block := b.extract start stop

/-- The block cut or extended with zeros to `n` bytes. -/
def resize (b : Block) (n : Nat) : Block :=
  b.extract 0 n ++ Array.replicate (n - b.size) 0

/-- Overwrites bytes from an offset on; bytes that would fall outside are dropped. -/
def overwrite (b : Block) (o : Nat) (bytes : List Byte) : Block :=
  match bytes with
  | [] => b
  | v :: rest => overwrite (b.setIfInBounds o v) (o + 1) rest

@[simp] theorem size_resize (b : Block) (n : Nat) : (b.resize n).size = n := by
  simp [resize]; omega

theorem size_setByte? {b b' : Block} {o : Nat} {v : Byte} (h : b.setByte? o v = some b') :
    b'.size = b.size := by
  unfold setByte? at h
  split at h <;> simp_all
  simp [← h]

theorem size_setHalf? {b b' : Block} {o : Nat} {v : Half} (h : b.setHalf? o v = some b') :
    b'.size = b.size := by
  unfold setHalf? at h
  split at h <;> simp_all
  simp [← h]

theorem size_setCell? {b b' : Block} {o : Nat} {v : Cell} (h : b.setCell? o v = some b') :
    b'.size = b.size := by
  unfold setCell? at h
  split at h <;> simp_all
  simp [← h]

@[simp] theorem size_overwrite (b : Block) (o : Nat) (bytes : List Byte) :
    (b.overwrite o bytes).size = b.size := by
  induction bytes generalizing b o with
  | nil => rfl
  | cons v rest ih => simp [overwrite, ih]

theorem cell?_setCell? {b b' : Block} {o : Nat} {v : Cell} (h : b.setCell? o v = some b') :
    b'.cell? o = some v := by
  have hs := size_setCell? h
  unfold setCell? at h
  split at h
  next hb =>
    cases h
    have h0 : o < b.size := by omega
    have h1 : o + 1 < b.size := by omega
    have h2 : o + 2 < b.size := by omega
    have h3 : o + 3 < b.size := by omega
    simp only [cell?, hs, hb, ↓reduceIte, Array.getD_eq_getD_getElem?,
      Array.getElem?_setIfInBounds, Array.size_setIfInBounds, h0, h1, h2, h3]
    simp [Cell.ofBytes_bytes]
  next => cases h

end Block

end PawnNative
