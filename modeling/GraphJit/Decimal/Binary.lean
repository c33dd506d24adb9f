import GraphJit.Word

/-! # Binary floating point patterns

A binary interchange format packs a sign, a biased exponent and a fraction
into a word. Finite patterns denote `mantissa * 2 ^ exponent`; rounding maps a
positive fraction to the nearest pattern, with ties to the even mantissa.
-/

namespace GraphJit.Decimal

def tenPow (exponent : Nat) : Nat :=
  Nat.pow 10 exponent

/-- A binary interchange format, given by the widths of its two fields. -/
structure BinaryFormat where
  fractionBits : Nat
  exponentBits : Nat
deriving DecidableEq, Repr

/-- What a bit pattern denotes. -/
inductive BinaryValue where
  | nan
  | infinite (negative : Bool)
  | finite (negative : Bool) (mantissa : Nat) (exponent : Int)
deriving DecidableEq, Repr

namespace BinaryFormat

/-- Single precision. -/
def binary32 : BinaryFormat := ⟨23, 8⟩

/-- Double precision. -/
def binary64 : BinaryFormat := ⟨52, 11⟩

variable (format : BinaryFormat)

/-- Exponent of the unit in the last place of subnormal numbers. -/
def leastExponent : Int :=
  2 - (twoPow (format.exponentBits - 1) : Int) - (format.fractionBits : Int)

/-- Largest value of the biased exponent field, used by infinities and NaNs. -/
def topExponent : Nat :=
  twoPow format.exponentBits - 1

/-- Pattern of the positive infinity. -/
def infinityBits : Nat :=
  format.topExponent * twoPow format.fractionBits

/-- Pattern of the quiet NaN without payload. -/
def nanBits : Nat :=
  format.infinityBits + twoPow (format.fractionBits - 1)

/-- Place of the sign bit. -/
def signBit : Nat :=
  twoPow (format.exponentBits + format.fractionBits)

/-- Set the sign bit of a pattern that has it clear. -/
def withSign (negative : Bool) (bits : Nat) : Nat :=
  if negative then format.signBit + bits else bits

/-- Decode a pattern; bits above the sign are ignored. -/
def decode (bits : Nat) : BinaryValue :=
  let negative := bits / format.signBit % 2 == 1
  let field := bits / twoPow format.fractionBits % twoPow format.exponentBits
  let fraction := bits % twoPow format.fractionBits
  if field = format.topExponent then
    if fraction = 0 then .infinite negative else .nan
  else if field = 0 then .finite negative fraction format.leastExponent
  else .finite negative (twoPow format.fractionBits + fraction) (format.leastExponent + (field - 1))

end BinaryFormat

/-- Scale the fraction `num / den` by `2 ^ -exponent`. -/
def scaleDown (num den : Nat) (exponent : Int) : Nat × Nat :=
  if 0 ≤ exponent then (num, den * twoPow exponent.toNat) else (num * twoPow (-exponent).toNat, den)

/-- Nearest natural number to `num / den`, ties to even. -/
def roundHalfEven (num den : Nat) : Nat :=
  let quotient := num / den
  let twice := 2 * (num % den)
  if den < twice ∨ (twice = den ∧ quotient % 2 = 1) then quotient + 1 else quotient

/-- The exponent `e` with `2 ^ e ≤ num / den < 2 ^ (e + 1)`, for a positive fraction. -/
def floorLog2 (num den : Nat) : Int :=
  let estimate : Int := (num.log2 : Int) - den.log2
  let scaled := scaleDown num den estimate
  if scaled.1 < scaled.2 then estimate - 1 else estimate

namespace BinaryFormat

/-- The pattern nearest to the positive fraction `num / den`. Adding the rounded
mantissa to the exponent field lets a carry move on to the next binade. -/
def round (format : BinaryFormat) (num den : Nat) : Nat :=
  let unit := max format.leastExponent (floorLog2 num den - format.fractionBits)
  let scaled := scaleDown num den unit
  let binade := (unit - format.leastExponent).toNat
  min (binade * twoPow format.fractionBits + roundHalfEven scaled.1 scaled.2) format.infinityBits

end BinaryFormat

end GraphJit.Decimal
