import GraphJit.Decimal.Shortest

/-! # Writing floating point numbers

Numbers are written with the fewest digits that read back, either positionally
with at least one place after the point, or with a power of ten.
-/

namespace GraphJit.Decimal

/-- Which numbers are written positionally, by the exponent of their leading digit. -/
structure Layout where
  /-- Smallest leading exponent written positionally. -/
  least : Int
  /-- Leading exponents from here on take a power of ten. -/
  limit : Int

/-- The layout of constants in program text. -/
def Layout.constant : Layout := ⟨-4, 16⟩

/-- Drop the zeros at the end of a digit list. -/
def dropZeros (digits : List Char) : List Char :=
  (digits.reverse.dropWhile (· == '0')).reverse

/-- Write the digits with the leading one standing for `10 ^ leading`. -/
def Layout.write (layout : Layout) (digits : List Char) (leading : Int) : List Char :=
  if layout.least ≤ leading ∧ leading < layout.limit then
    if 0 ≤ leading then
      let places := leading.toNat + 1
      let whole := digits.take places ++ List.replicate (places - digits.length) '0'
      let part := digits.drop places
      whole ++ '.' :: (if part.isEmpty then ['0'] else part)
    else '0' :: '.' :: (List.replicate ((-leading).toNat - 1) '0' ++ digits)
  else
    let mantissa :=
      match digits with
      | [] => []
      | [digit] => [digit]
      | digit :: more => digit :: '.' :: more
    mantissa ++ 'e' :: (toString leading).toList

/-- The text of a bit pattern. A NaN is written without sign or payload. -/
def BinaryFormat.write (format : BinaryFormat) (bits : Nat) : String :=
  match format.decode bits with
  | .nan => "NaN"
  | .infinite negative => if negative then "-inf" else "inf"
  | .finite negative mantissa exponent =>
    let body :=
      if mantissa = 0 then "0.0".toList
      else
        let decimal := format.shortest mantissa exponent
        let digits := Nat.toDigits 10 decimal.digits
        Layout.constant.write (dropZeros digits) (decimal.exponent + digits.length - 1)
    String.ofList (if negative then '-' :: body else body)

end GraphJit.Decimal
