import GraphJit.IR.Instruction

/-! # Condition codes

The sixteen conditions of conditional jumps and sets, numbered as in the low
half of their opcodes. Neighbours are each other's negation.
-/

namespace GraphJit.X64

inductive Condition where
  | overflow
  | notOverflow
  | below
  | aboveOrEqual
  | equal
  | notEqual
  | belowOrEqual
  | above
  | sign
  | notSign
  | parityEven
  | parityOdd
  | less
  | greaterOrEqual
  | lessOrEqual
  | greater
deriving DecidableEq, Repr

namespace Condition

def code : Condition → Fin 16
  | overflow => 0
  | notOverflow => 1
  | below => 2
  | aboveOrEqual => 3
  | equal => 4
  | notEqual => 5
  | belowOrEqual => 6
  | above => 7
  | sign => 8
  | notSign => 9
  | parityEven => 10
  | parityOdd => 11
  | less => 12
  | greaterOrEqual => 13
  | lessOrEqual => 14
  | greater => 15

def ofCode : Fin 16 → Condition
  | 0 => overflow
  | 1 => notOverflow
  | 2 => below
  | 3 => aboveOrEqual
  | 4 => equal
  | 5 => notEqual
  | 6 => belowOrEqual
  | 7 => above
  | 8 => sign
  | 9 => notSign
  | 10 => parityEven
  | 11 => parityOdd
  | 12 => less
  | 13 => greaterOrEqual
  | 14 => lessOrEqual
  | _ => greater

/-- The condition that holds exactly where the given one does not. -/
def negate (condition : Condition) : Condition :=
  ofCode (condition.code ^^^ 1)

def name : Condition → String
  | overflow => "Overflow"
  | notOverflow => "NotOverflow"
  | below => "Below"
  | aboveOrEqual => "AboveOrEqual"
  | equal => "Equal"
  | notEqual => "NotEqual"
  | belowOrEqual => "BelowOrEqual"
  | above => "Above"
  | sign => "Sign"
  | notSign => "NotSign"
  | parityEven => "ParityEven"
  | parityOdd => "ParityOdd"
  | less => "Less"
  | greaterOrEqual => "GreaterOrEqual"
  | lessOrEqual => "LessOrEqual"
  | greater => "Greater"

/-- Ending of the mnemonics of conditional jumps and sets. -/
def suffix : Condition → String
  | overflow => "o"
  | notOverflow => "no"
  | below => "b"
  | aboveOrEqual => "ae"
  | equal => "e"
  | notEqual => "ne"
  | belowOrEqual => "be"
  | above => "a"
  | sign => "s"
  | notSign => "ns"
  | parityEven => "p"
  | parityOdd => "np"
  | less => "l"
  | greaterOrEqual => "ge"
  | lessOrEqual => "le"
  | greater => "g"

/-- The condition that holds after comparing two integers. -/
def ofIntegers : Comparison → Condition
  | .eq => equal
  | .ne => notEqual
  | .ge => greaterOrEqual
  | .le => lessOrEqual
  | .gt => greater
  | .lt => less
  | .geu => aboveOrEqual
  | .leu => belowOrEqual
  | .gtu => above
  | .ltu => below

/-- The condition that holds after comparing two ordered floats, which sets the flags
like an unsigned comparison. -/
def ofFloats : Comparison → Condition
  | .eq => equal
  | .ne => notEqual
  | .ge | .geu => aboveOrEqual
  | .le | .leu => belowOrEqual
  | .gt | .gtu => above
  | .lt | .ltu => below

end Condition

end GraphJit.X64
