import PawnNative.Text.Hex
import PawnNative.Toml.Scan
import PawnNative.Toml.Value

/-! # Numbers, dates and times in TOML

    Integers are cells of 64 bits; a decimal one has no leading zeros. A float has
    a fraction or an exponent, and a positive float that rounds to infinity is
    refused. Dates must exist in the calendar.
-/

namespace PawnNative.Toml

def ofDigits (base : Nat) (ds : List Char) : Nat :=
  ds.foldl (fun n c => n * base + (Hex.digitValue? c).getD 0) 0

/-- A sign, if there is one; tells whether it is a minus. -/
def sign : List Char → Bool × List Char
  | '+' :: rest => (false, rest)
  | '-' :: rest => (true, rest)
  | cs => (false, cs)

/-- The digits of a decimal integer: no zero before another digit. -/
def decimalDigits : Scanner (List Char)
  | '0' :: rest => some (['0'], rest)
  | cs => digits Char.isDigit cs

/-- An integer, if 64 bits hold it. -/
def integerValue (neg : Bool) (n : Nat) : Option Value :=
  let v : Int := if neg then -n else n
  if -0x8000000000000000 ≤ v ∧ v < 0x8000000000000000 then some (.integer v) else none

/-- An integer in another base, after its mark. -/
def based (base : Nat) (p : Char → Bool) : Scanner Value := fun cs => do
  let (ds, rest) ← digits p cs
  return (← integerValue false (ofDigits base ds), rest)

def integer : Scanner Value
  | '0' :: 'x' :: rest => based 16 (fun c => (Hex.digitValue? c).isSome) rest
  | '0' :: 'o' :: rest => based 8 (fun c => '0' ≤ c && c ≤ '7') rest
  | '0' :: 'b' :: rest => based 2 (fun c => c == '0' || c == '1') rest
  | cs => do
    let (neg, cs) := sign cs
    let (ds, rest) ← decimalDigits cs
    return (← integerValue neg (ofDigits 10 ds), rest)

def exponent : Scanner Int
  | c :: rest =>
    if c == 'e' || c == 'E' then do
      let (neg, cs) := sign rest
      let (ds, rest) ← digits Char.isDigit cs
      let n : Int := ofDigits 10 ds
      return (if neg then -n else n, rest)
    else none
  | [] => none

/-- Whether `m * 10 ^ e` rounds to infinity: it is at least half-way from the largest number
    to the next power of two. -/
def overflows (m : Nat) (e : Int) : Bool :=
  let size : Int := (Nat.toDigits 10 m).length + e
  let limit : Nat := 1 <<< 1024 - 1 <<< 970
  if m = 0 ∨ size < 308 then false
  else if 310 < size then true
  else if 0 ≤ e then decide (limit ≤ m * Nat.pow 10 e.toNat)
  else decide (limit * Nat.pow 10 (-e).toNat ≤ m)

/-- What a scanner took, as it is written. -/
def taken (cs rest : List Char) : List Char := cs.take (cs.length - rest.length)

def digitFloat : Scanner Value := fun cs => do
  let (neg, start) := sign cs
  let (whole, rest) ← decimalDigits start
  let (frac, e, rest) ← match rest with
    | '.' :: rest => do
      let (frac, rest) ← digits Char.isDigit rest
      match exponent rest with
      | some (e, rest) => pure (frac, e, rest)
      | none => pure (frac, 0, rest)
    | rest => do
      let (e, rest) ← exponent rest
      pure ([], e, rest)
  if !neg && overflows (ofDigits 10 (whole ++ frac)) (e - frac.length) then none
  else return (.float (taken cs rest), rest)

/-- Infinity or no number. -/
def namedFloat : Scanner Value := fun cs => do
  let (_, start) := sign cs
  let rest ← (exactly "inf" start).or (exactly "nan" start)
  return (.float (taken cs rest), rest)

/-- A number of `n` digits between two bounds. -/
def fixedDigits (n low high : Nat) : Scanner Nat := fun cs =>
  let ds := cs.take n
  let v := ofDigits 10 ds
  if ds.length = n ∧ ds.all Char.isDigit ∧ low ≤ v ∧ v ≤ high then some (v, cs.drop n) else none

def daysOf (year month : Nat) : Nat :=
  if month = 2 then
    if year % 4 = 0 ∧ (year % 100 ≠ 0 ∨ year % 400 = 0) then 29 else 28
  else if month = 4 ∨ month = 6 ∨ month = 9 ∨ month = 11 then 30
  else 31

def date? (cs : List Char) : Option (List Char) := do
  let (year, cs) ← fixedDigits 4 0 9999 cs
  let cs ← exactly "-" cs
  let (month, cs) ← fixedDigits 2 1 12 cs
  let cs ← exactly "-" cs
  let (_, cs) ← fixedDigits 2 1 (daysOf year month) cs
  return cs

def time? (cs : List Char) : Option (List Char) := do
  let (_, cs) ← fixedDigits 2 0 23 cs
  let cs ← exactly ":" cs
  let (_, cs) ← fixedDigits 2 0 59 cs
  let cs ← exactly ":" cs
  let (_, cs) ← fixedDigits 2 0 60 cs
  match cs with
  | '.' :: c :: rest => if c.isDigit then return rest.dropWhile Char.isDigit else return cs
  | cs => return cs

def offset? : List Char → Option (List Char)
  | c :: rest =>
    if c == 'Z' || c == 'z' then some rest
    else if c == '+' || c == '-' then do
      let (_, cs) ← fixedDigits 2 0 23 rest
      let cs ← exactly ":" cs
      let (_, cs) ← fixedDigits 2 0 59 cs
      return cs
    else none
  | [] => none

/-- The text after the time that may follow a date. -/
def timeOfDay (cs : List Char) : List Char :=
  match cs with
  | c :: rest =>
    if c == 'T' || c == 't' || c == ' ' then
      match time? rest with
      | some rest => (offset? rest).getD rest
      | none => cs
    else cs
  | [] => []

def datetime : Scanner Value := fun cs =>
  match date? cs with
  | some rest =>
    let rest := timeOfDay rest
    some (.datetime (taken cs rest), rest)
  | none => (time? cs).map fun rest => (.datetime (taken cs rest), rest)

def number : Scanner Value := fun cs =>
  (datetime cs).or ((digitFloat cs).or ((namedFloat cs).or (integer cs)))

end PawnNative.Toml
