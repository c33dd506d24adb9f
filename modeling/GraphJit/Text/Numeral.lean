import GraphJit.Word

/-! # Integer numerals

Decimal and hexadecimal numerals with an optional sign, read into bounded
ranges, and the lower case hexadecimal form used for addresses and bytes.
-/

namespace GraphJit.Text

/-- The value of a digit in bases up to sixteen; letters count in either case. -/
def digitValue? (base : Nat) (c : Char) : Option Nat :=
  let value? :=
    if '0' ≤ c ∧ c ≤ '9' then some (c.toNat - '0'.toNat)
    else if 'a' ≤ c ∧ c ≤ 'f' then some (c.toNat - 'a'.toNat + 10)
    else if 'A' ≤ c ∧ c ≤ 'F' then some (c.toNat - 'A'.toNat + 10)
    else none
  value?.filter (· < base)

def isDigit (c : Char) : Bool :=
  '0' ≤ c && c ≤ '9'

/-- Read digits after an already known value, most significant first. -/
def digits? (base : Nat) : Nat → List Char → Option Nat
  | value, [] => some value
  | value, c :: rest => do digits? base (base * value + (← digitValue? base c)) rest

/-- A numeral of one or more digits. -/
def natural? (base : Nat) : List Char → Option Nat
  | [] => none
  | text => digits? base 0 text

/-- An unsigned numeral below `bound`; a plus sign may stand in front. -/
def unsigned? (base bound : Nat) (text : List Char) : Option Nat :=
  let body :=
    match text with
    | '+' :: rest => rest
    | _ => text
  (natural? base body).filter (· < bound)

/-- A decimal numeral in the range of signed `width`-bit integers. -/
def signed? (width : Nat) (text : List Char) : Option Int :=
  let value? : Option Int :=
    match text with
    | '-' :: rest => (natural? 10 rest).map fun value => -(value : Int)
    | '+' :: rest => (natural? 10 rest).map Int.ofNat
    | _ => (natural? 10 text).map Int.ofNat
  value?.filter (fitsSigned width)

/-- Lower case hexadecimal digits of a number, without padding. -/
def hexDigits (value : Nat) : String :=
  String.ofList (Nat.toDigits 16 value)

/-- Hexadecimal form with the `0x` mark. -/
def hex (value : Nat) : String :=
  "0x" ++ hexDigits value

/-- Hexadecimal digits padded with zeros to at least `width` places. -/
def hexPadded (width value : Nat) : String :=
  let digits := Nat.toDigits 16 value
  String.ofList (List.replicate (width - digits.length) '0' ++ digits)

/-- Two hexadecimal digits for every byte. -/
def hexBytes (bytes : List UInt8) : String :=
  String.join (bytes.map fun byte => hexPadded 2 byte.toNat)

end GraphJit.Text
