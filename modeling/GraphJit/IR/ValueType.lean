/-! # Value types -/

namespace GraphJit

/-- Types of the values that operations read and write. -/
inductive ValueType where
  | i32
  | i64
  | f32
  | f64
deriving DecidableEq, Repr, Inhabited

namespace ValueType

def isInteger : ValueType → Bool
  | i32 | i64 => true
  | f32 | f64 => false

def isFloat (type : ValueType) : Bool :=
  !type.isInteger

/-- Size in bytes. -/
def size : ValueType → Nat
  | i32 | f32 => 4
  | i64 | f64 => 8

def name : ValueType → String
  | i32 => "i32"
  | i64 => "i64"
  | f32 => "f32"
  | f64 => "f64"

def ofName? : String → Option ValueType
  | "i32" => some i32
  | "i64" => some i64
  | "f32" => some f32
  | "f64" => some f64
  | _ => none

end ValueType

end GraphJit
