import PawnNative.Cell

/-! # Texts in images

    Names are stored in UTF-8. Texts in the data segment are stored unpacked: one
    character in each cell, and a zero cell at the end.
-/

namespace PawnNative.Text

def utf8 (s : String) : List Byte := s.toUTF8.data.toList.map UInt8.toBitVec

/-- The text with this encoding, if it is one. -/
def ofUtf8? (bytes : List Byte) : Option String :=
  String.fromUTF8? ⟨(bytes.map UInt8.ofBitVec).toArray⟩

def cells (s : String) : List Cell := s.toList.map (fun c => BitVec.ofNat 32 c.toNat) ++ [0]

/-- The character of a cell; cells that are no character give the replacement character. -/
def character (c : Cell) : Char :=
  if c.toNat.isValidChar then Char.ofNat c.toNat else '�'

end PawnNative.Text
