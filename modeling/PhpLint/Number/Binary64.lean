/-! Binary floating-point numbers of 64 bits, and the rounding of decimals to them. -/
namespace PhpLint

inductive Binary64 where
  | nan
  | infinite (negative : Bool)
  /-- The number `mantissa * 2 ^ exponent`. -/
  | finite (negative : Bool) (mantissa : Nat) (exponent : Int)
  deriving DecidableEq, Repr

namespace Binary64

/-- Mantissas are below this. -/
def mantissaBound : Nat :=
  0x20000000000000

/-- The exponents of finite numbers. -/
def minExponent : Int :=
  -1074

def maxExponent : Int :=
  971

/-- The integer next to a number that is not negative; a half goes to the even neighbour. -/
def roundEven (x : Rat) : Nat :=
  let below := x.floor.toNat
  let rest := x - below
  if rest < 1 / 2 then below
  else if 1 / 2 < rest then below + 1
  else below + below % 2

/-- The exponent that leaves 53 bits in front of the point, but no less than the least. -/
def exponentFor (x : Rat) : Int :=
  let bits : Int := (Nat.log2 x.num.toNat : Int) - Nat.log2 x.den
  let e := max (bits - 53) minExponent
  if x / (2 : Rat) ^ e < mantissaBound then e else e + 1

/-- The number closest to a positive one. -/
def ofRat (negative : Bool) (x : Rat) : Binary64 :=
  let e := exponentFor x
  let m := roundEven (x / (2 : Rat) ^ e)
  let (m, e) := if m == mantissaBound then (mantissaBound / 2, e + 1) else (m, e)
  if maxExponent < e then .infinite negative else .finite negative m e

/-- Number of decimal digits. -/
def digitCount (n : Nat) : Nat :=
  (Nat.toDigits 10 n).length

/-- The number closest to `digits * 10 ^ exponent`. Far outside the range no power is computed. -/
def ofDecimal (negative : Bool) (digits : Nat) (exponent : Int) : Binary64 :=
  let size := digitCount digits + exponent
  if digits == 0 || size < -400 then .finite negative 0 minExponent
  else if 400 < size then .infinite negative
  else ofRat negative (digits * (10 : Rat) ^ exponent)

end Binary64

end PhpLint
