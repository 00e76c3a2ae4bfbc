import PawnNative.Cell

/-! # Numbers in listings

    Addresses are written in lower-case hexadecimal, padded with zeros on the
    left; a cell is written as the unsigned number with its bits.
-/

namespace PawnNative.Hex

/-- Lower-case hexadecimal digits, no padding. -/
def digits (n : Nat) : String := String.ofList (Nat.toDigits 16 n)

/-- At least `width` hexadecimal digits. -/
def padded (width n : Nat) : String :=
  let ds := Nat.toDigits 16 n
  String.ofList (List.replicate (width - ds.length) '0' ++ ds)

/-- A cell as eight digits. -/
def cell (c : Cell) : String := padded 8 c.toNat

/-- A cell as eight digits after `0x`. -/
def address (c : Cell) : String := "0x" ++ padded 8 c.toNat

/-- A decimal number aligned to the right in `width` columns. -/
def column (width n : Nat) : String :=
  let ds := Nat.toDigits 10 n
  String.ofList (List.replicate (width - ds.length) ' ' ++ ds)

/-- Bytes as two digits each. -/
def bytes (bs : List Byte) : String := String.join (bs.map fun b => padded 2 b.toNat)

def digitValue? (c : Char) : Option Nat :=
  if '0' ≤ c ∧ c ≤ '9' then some (c.toNat - '0'.toNat)
  else if 'a' ≤ c ∧ c ≤ 'f' then some (c.toNat - 'a'.toNat + 10)
  else if 'A' ≤ c ∧ c ≤ 'F' then some (c.toNat - 'A'.toNat + 10)
  else none

/-- The bytes that are written as two digits each. -/
def bytes? : List Char → Option (List Byte)
  | [] => some []
  | a :: b :: rest => do
    let high ← digitValue? a
    let low ← digitValue? b
    return BitVec.ofNat 8 (high * 16 + low) :: (← bytes? rest)
  | [_] => none

end PawnNative.Hex

namespace PawnNative

/-- A cell as a signed decimal number. -/
def Cell.decimal (c : Cell) : String := Int.repr c.toInt

end PawnNative
