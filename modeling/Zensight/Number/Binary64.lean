/-!
# Numbers of 53 bits

Numbers of the form `mantissa * 2 ^ exponent` whose mantissa has at most 53 bits
and whose exponent is at least -1074. A fraction is rounded to the nearest of
them, and of two equally near ones to the one with the even mantissa.
-/

namespace Zensight

/-- A number without sign. -/
structure Binary64 where
  mantissa : Nat
  exponent : Int
  deriving DecidableEq, Repr

namespace Binary64

/-- The number of bits of a mantissa. -/
def precision : Nat := 53

/-- The least exponent. -/
def leastExponent : Int := -1074

/-- No number is as large as two to this power. -/
def bound : Nat := 1024

def zero : Binary64 := ⟨0, 0⟩

/-- The quotient rounded to a whole number, a half to the even one. -/
def roundDiv (n d : Nat) : Nat :=
  let q := n / d
  let r := n % d
  if 2 * r < d then q
  else if d < 2 * r then q + 1
  else if q % 2 = 0 then q else q + 1

/-- Is the fraction less than two to the power of `e`? -/
def isBelow (n d : Nat) (e : Int) : Bool :=
  if 0 ≤ e then n < d * Nat.pow 2 e.toNat else n * Nat.pow 2 (-e).toNat < d

/-- The exponent for a fraction: the mantissa takes all its bits if the exponent
is not too small then. -/
def exponentFor (n d : Nat) : Int :=
  let top : Int := (Nat.log2 n : Int) - Nat.log2 d
  let top := if isBelow n d top then top - 1 else top
  max (top - (precision - 1 : Nat)) leastExponent

/-- The number nearest to a fraction, if it is not too large. -/
def ofFraction? (n d : Nat) : Option Binary64 :=
  if n = 0 then some zero
  else
    let e := exponentFor n d
    let m :=
      if 0 ≤ e then roundDiv n (d * Nat.pow 2 e.toNat) else roundDiv (n * Nat.pow 2 (-e).toNat) d
    if 0 ≤ e && Nat.pow 2 bound ≤ m * Nat.pow 2 e.toNat then none else some ⟨m, e⟩

/-- Decimal exponents beyond this size need no exact look. -/
def decimalReach : Int := 400

/-- The number nearest to `digits * 10 ^ e`, if it is not too large. -/
def ofDecimal? (digits : Nat) (e : Int) : Option Binary64 :=
  let size : Int := (Nat.toDigits 10 digits).length + e
  if digits = 0 || size < -decimalReach then some zero
  else if decimalReach < size then none
  else if 0 ≤ e then ofFraction? (digits * Nat.pow 10 e.toNat) 1
  else ofFraction? digits (Nat.pow 10 (-e).toNat)

/-- The number without its fraction. -/
def whole (x : Binary64) : Nat :=
  if 0 ≤ x.exponent then x.mantissa * Nat.pow 2 x.exponent.toNat
  else x.mantissa / Nat.pow 2 (-x.exponent).toNat

end Binary64

end Zensight
