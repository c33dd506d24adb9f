import GraphJit.Decimal.Binary

/-! # Shortest decimals that read back

A positive number `mantissa * 2 ^ exponent` is the image, under rounding to
nearest, of a whole interval of reals. The shortest decimal is found on the
coarsest decimal grid on which one of the two neighbours of the number lies in
that interval; of two such neighbours the nearer is taken, and the upper one if
they are equally near.
-/

namespace GraphJit.Decimal

/-- The number `digits * 10 ^ exponent`. -/
structure ShortDecimal where
  digits : Nat
  exponent : Int
deriving DecidableEq, Repr

/-- A number and the ends of its rounding interval, over one denominator. -/
structure RoundingInterval where
  low : Nat
  value : Nat
  high : Nat
  denominator : Nat
  /-- Whether the ends themselves round to the number. -/
  closed : Bool
deriving Repr

/-- The rounding interval of `mantissa * 2 ^ exponent`. Below a power of two the
numbers lie half as far apart. -/
def BinaryFormat.interval (format : BinaryFormat) (mantissa : Nat) (exponent : Int) :
    RoundingInterval :=
  let below := if mantissa = twoPow format.fractionBits ∧ format.leastExponent < exponent then 1 else 2
  let scale := scaleDown 1 1 (2 - exponent)
  { low := (4 * mantissa - below) * scale.1
    value := 4 * mantissa * scale.1
    high := (4 * mantissa + 2) * scale.1
    denominator := scale.2
    closed := mantissa % 2 == 0 }

namespace RoundingInterval

/-- Scale numerator and denominator so that the grid `10 ^ unit` becomes the integers. -/
def gridScale (interval : RoundingInterval) (unit : Int) : Nat × Nat :=
  if 0 ≤ unit then (1, interval.denominator * tenPow unit.toNat)
  else (tenPow (-unit).toNat, interval.denominator)

/-- Whether the grid point `digits * 10 ^ unit` rounds to the number. -/
def holds (interval : RoundingInterval) (unit : Int) (digits : Nat) : Bool :=
  let scale := interval.gridScale unit
  let point := digits * scale.2
  if interval.closed then interval.low * scale.1 ≤ point && point ≤ interval.high * scale.1
  else interval.low * scale.1 < point && point < interval.high * scale.1

/-- The neighbour of the number on the grid `10 ^ unit` that reads back, if there is one. -/
def neighbour? (interval : RoundingInterval) (unit : Int) : Option Nat :=
  let scale := interval.gridScale unit
  let floor := interval.value * scale.1 / scale.2
  let rest := interval.value * scale.1 % scale.2
  let down := interval.holds unit floor
  let up := interval.holds unit (floor + 1)
  if up && (!down || scale.2 ≤ 2 * rest) then some (floor + 1)
  else if down then some floor
  else none

/-- Try grids from `unit` downwards. -/
def search (interval : RoundingInterval) : Nat → Int → ShortDecimal
  | 0, unit => ⟨0, unit⟩
  | fuel + 1, unit =>
    match interval.neighbour? unit with
    | some digits => ⟨digits, unit⟩
    | none => interval.search fuel (unit - 1)

end RoundingInterval

/-- A power of ten above `2 ^ bits`. -/
def decimalCeiling (bits : Int) : Int :=
  if 0 ≤ bits then bits / 3 + 1 else -(-bits * 3 / 10) + 1

/-- The shortest decimal that reads back as the positive number `mantissa * 2 ^ exponent`. -/
def BinaryFormat.shortest (format : BinaryFormat) (mantissa : Nat) (exponent : Int) : ShortDecimal :=
  let top := decimalCeiling (mantissa.log2 + 1 + exponent)
  (format.interval mantissa exponent).search (format.fractionBits + twoPow format.exponentBits) top

end GraphJit.Decimal
