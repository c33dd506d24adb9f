import GraphJit.Decimal.Binary
import GraphJit.Text.Cut
import GraphJit.Text.Numeral

/-! # Reading floating point numbers

A number is a decimal with an optional point and an optional power of ten, or
one of the words for infinity and NaN in any case, each with an optional sign.
Decimals are rounded to the nearest pattern of the format.
-/

namespace GraphJit.Decimal

open GraphJit.Text

/-- The digits of a decimal before and after the point, and its power of ten. -/
structure Scientific where
  whole : List Char
  part : List Char
  power : Int
deriving DecidableEq, Repr

/-- The power of ten after the mark: an optional sign and at least one digit. -/
def readPower? : List Char → Option Int
  | '-' :: rest => (natural? 10 rest).map fun power => -(power : Int)
  | '+' :: rest => (natural? 10 rest).map Int.ofNat
  | rest => (natural? 10 rest).map Int.ofNat

/-- Split an unsigned decimal into its parts. At least one digit is needed. -/
def readScientific? (text : List Char) : Option Scientific := do
  let whole := text.takeWhile isDigit
  let rest := text.dropWhile isDigit
  let (part, rest) :=
    match rest with
    | '.' :: more => (more.takeWhile isDigit, more.dropWhile isDigit)
    | _ => ([], rest)
  guard !(whole.isEmpty && part.isEmpty)
  match rest with
  | [] => some ⟨whole, part, 0⟩
  | mark :: more =>
    guard (mark == 'e' || mark == 'E')
    some ⟨whole, part, ← readPower? more⟩

/-- Round a decimal. Numbers whose leading digit stands beyond every finite pattern
of either format, or below half of every positive one, need no exact arithmetic. -/
def Scientific.round (number : Scientific) (format : BinaryFormat) : Nat :=
  let digits := (number.whole ++ number.part).dropWhile (· == '0')
  let mantissa := digits.foldl (fun value c => 10 * value + (c.toNat - '0'.toNat)) 0
  let exponent := number.power - number.part.length
  let magnitude := exponent + digits.length
  if digits.isEmpty then 0
  else if 400 < magnitude then format.infinityBits
  else if magnitude < -400 then 0
  else if 0 ≤ exponent then format.round (mantissa * tenPow exponent.toNat) 1
  else format.round mantissa (tenPow (-exponent).toNat)

/-- The pattern of an unsigned number. -/
def BinaryFormat.readUnsigned? (format : BinaryFormat) (text : List Char) : Option Nat :=
  let word := text.map Char.toLower
  if word = "inf".toList ∨ word = "infinity".toList then some format.infinityBits
  else if word = "nan".toList then some format.nanBits
  else (readScientific? text).map fun number => number.round format

/-- The pattern of a number with an optional sign. -/
def BinaryFormat.read? (format : BinaryFormat) : List Char → Option Nat
  | '-' :: rest => (format.readUnsigned? rest).map (format.withSign true)
  | '+' :: rest => format.readUnsigned? rest
  | text => format.readUnsigned? text

end GraphJit.Decimal
