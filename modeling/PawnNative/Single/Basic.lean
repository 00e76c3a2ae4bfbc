import PawnNative.Cell

/-! # Single-precision numbers

    A cell can hold a single-precision number: a sign bit, eight bits of exponent
    and 23 bits of fraction. Arithmetic is exact integer arithmetic on the parts,
    followed by one rounding to the nearest number, ties to even.

    Results that are no number follow the processor: an operand that is not a
    number is handed on with its quiet bit set, the first operand before the
    second, and an operation without a value gives the default pattern.
-/

namespace PawnNative

/-- The bit pattern of a single-precision number. -/
abbrev Single := Cell

namespace Single

/-- The sign bit. -/
def negative (x : Single) : Bool := x.msb

def exponent (x : Single) : Nat := x.toNat >>> 23 % 256

def fraction (x : Single) : Nat := x.toNat % 0x800000

/-- The pattern is not a number. -/
def isNaN (x : Single) : Bool := x.exponent == 255 && x.fraction != 0

/-- The pattern is an infinity. -/
def isInf (x : Single) : Bool := x.exponent == 255 && x.fraction == 0

/-- The pattern is a zero of either sign. -/
def isZero (x : Single) : Bool := x.exponent == 0 && x.fraction == 0

/-- A pattern that is not a number, with its quiet bit set. -/
def quiet (x : Single) : Single := x ||| 0x00400000

/-- What an operation without a value gives. -/
def defaultNaN : Single := 0xFFC00000

/-- The sign bit alone. -/
def signBit (neg : Bool) : Single := if neg then 0x80000000 else 0

def infinity (neg : Bool) : Single := signBit neg ||| 0x7F800000

def zero (neg : Bool) : Single := signBit neg

/-- The whole number `m` of the value `m · 2^q` of a finite pattern. -/
def significand (x : Single) : Nat :=
  if x.exponent = 0 then x.fraction else x.fraction + 0x800000

/-- The power `q` of the value `m · 2^q` of a finite pattern. -/
def power (x : Single) : Int := (max x.exponent 1 : Nat) - 150

/-- The number nearest to `(n + e) · 2^q` with this sign, where `e` is 0, or, when there is a
    rest, lies between 0 and 1. With a rest, `n` has to have more bits than a significand. -/
def round (neg : Bool) (n : Nat) (q : Int) (rest : Bool) : Single :=
  if n = 0 then zero neg
  else
    let ulp := max (q + Nat.log2 n - 23) (-149)
    let m :=
      if ulp ≤ q then n <<< (q - ulp).toNat
      else
        let unit := 1 <<< (ulp - q).toNat
        let low := n / unit
        let twice := 2 * (n % unit)
        if twice > unit || twice == unit && (rest || low % 2 == 1) then low + 1 else low
    let bits := (ulp + 149).toNat <<< 23 + m
    if bits ≥ 0x7F800000 then infinity neg else signBit neg ||| BitVec.ofNat 32 bits

/-- The operand that is not a number and becomes the result, if there is one. -/
def handedOn (x y : Single) : Option Single :=
  if x.isNaN then some x.quiet else if y.isNaN then some y.quiet else none

/-- The exact value of a finite pattern in units of `2^q`, for a `q` not above its power. -/
def inUnits (x : Single) (q : Int) : Int :=
  let m := (x.significand <<< (x.power - q).toNat : Nat)
  if x.negative then -m else m

/-- The sum of two numbers, the second with its sign turned if `turn` says so. -/
def addSigned (turn : Bool) (x y : Single) : Single :=
  match handedOn x y with
  | some r => r
  | none =>
    let yneg := y.negative != turn
    if x.isInf then
      if y.isInf && x.negative != yneg then defaultNaN else infinity x.negative
    else if y.isInf then infinity yneg
    else
      let q := min x.power y.power
      let total := x.inUnits q + (if turn then -y.inUnits q else y.inUnits q)
      if total = 0 then zero (x.negative && yneg)
      else round (decide (total < 0)) total.natAbs q false

def add (x y : Single) : Single := addSigned false x y

def sub (x y : Single) : Single := addSigned true x y

def mul (x y : Single) : Single :=
  match handedOn x y with
  | some r => r
  | none =>
    let neg := x.negative != y.negative
    if x.isInf || y.isInf then
      if x.isZero || y.isZero then defaultNaN else infinity neg
    else round neg (x.significand * y.significand) (x.power + y.power) false

def div (x y : Single) : Single :=
  match handedOn x y with
  | some r => r
  | none =>
    let neg := x.negative != y.negative
    if x.isInf then
      if y.isInf then defaultNaN else infinity neg
    else if y.isInf then zero neg
    else if y.isZero then
      if x.isZero then defaultNaN else infinity neg
    else
      let n := x.significand <<< 64
      round neg (n / y.significand) (x.power - y.power - 64) (n % y.significand != 0)

/-- The largest number whose square is at most `n`, by halving steps. -/
def natSqrt (n : Nat) : Nat :=
  go (Nat.log2 n / 2 + 1) 0
where
  /-- Tries the bits below `2^k` from the highest to the lowest. -/
  go : Nat → Nat → Nat
    | 0, r => r
    | k + 1, r =>
      let r' := r + 1 <<< k
      if r' * r' ≤ n then go k r' else go k r

def sqrt (x : Single) : Single :=
  if x.isNaN then x.quiet
  else if x.isZero then x
  else if x.negative then defaultNaN
  else if x.isInf then x
  else
    -- an even power, and enough bits that the root has more than a significand
    let odd := x.power % 2 ≠ 0
    let n := x.significand <<< (if odd then 65 else 64)
    let q := (if odd then x.power - 1 else x.power) - 64
    let r := natSqrt n
    round false r (q / 2) (r * r != n)

/-- The number nearest to a signed cell. -/
def ofCell (c : Cell) : Single :=
  let n := c.toInt
  round (decide (n < 0)) n.natAbs 0 false

/-- The number without its sign. -/
def abs (x : Single) : Single := x &&& 0x7FFFFFFF

end Single

end PawnNative
