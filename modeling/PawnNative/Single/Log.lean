import PawnNative.Single.Basic

/-! # Logarithms

    The logarithm of a single-precision number is computed in fixed point with
    far more places than a significand has, and rounded once. A positive number
    is written as `m · 2^e` with `m` between about `1/√2` and `√2`, so that the
    two parts of the sum `e · log 2 + log m` never cancel. The logarithm of `m`
    is twice the inverse hyperbolic tangent of `(m - 1) / (m + 1)`.
-/

namespace PawnNative.Single

/-- Binary places of the fixed-point numbers. -/
def places : Nat := 192

/-- The inverse hyperbolic tangent of `p / q` in fixed point, for `|p / q|` at most `1 / 3`:
    the sum of `z^(2k+1) / (2k+1)`. -/
def atanhFixed (p : Int) (q : Nat) : Int :=
  go 72 (p * (1 <<< places : Nat) / q) 1 0
where
  /-- Adds `terms` further terms, of which the first is `z / odd`. -/
  go : Nat → Int → Nat → Int → Int
    | 0, _, _, sum => sum
    | terms + 1, z, odd, sum => go terms (z * (p * p) / (q * q : Nat)) (odd + 2) (sum + z / odd)

/-- The natural logarithm of 2 in fixed point. -/
def log2Fixed : Int := 2 * atanhFixed 1 3

/-- The natural logarithm of 10 in fixed point: `10 = 2^3 · 5/4`. -/
def log10Fixed : Int := 3 * log2Fixed + 2 * atanhFixed 1 9

/-- The natural logarithm of `n · 2^q` in fixed point, for positive `n`. -/
def lnFixed (n : Nat) (q : Int) : Int :=
  let len := Nat.log2 n
  -- 181/128 is close to the square root of two
  let up := 181 <<< len ≤ n * 128
  let e := if up then len + 1 else len
  q * log2Fixed + e * log2Fixed + 2 * atanhFixed (n - (1 <<< e : Nat) : Int) (n + 1 <<< e)

/-- The single-precision number nearest to a fixed-point number. -/
def ofFixed (v : Int) : Single := round (decide (v < 0)) v.natAbs (-places) false

def ln (x : Single) : Single :=
  if x.isNaN then x.quiet
  else if x.isZero then infinity true
  else if x.negative then defaultNaN
  else if x.isInf then x
  else ofFixed (lnFixed x.significand x.power)

/-- The logarithm to base 10. A negative number has none, and gives the quiet pattern
    without a sign. -/
def log10 (x : Single) : Single :=
  if x.isNaN then x.quiet
  else if x.isZero then infinity true
  else if x.negative then 0x7FC00000
  else if x.isInf then x
  else ofFixed (lnFixed x.significand x.power * (1 <<< places : Nat) / log10Fixed)

def ten : Single := 0x41200000

/-- The logarithm of `value` to `base`. -/
def log (value base : Single) : Single :=
  if base = ten then log10 value else div (ln value) (ln base)

end PawnNative.Single
