import GraphJit.X64.Branch

/-! # Object files

Functions are laid out one after the other in a text section, each at a
multiple of sixteen, with zeros between them.
-/

namespace GraphJit

structure ObjectSymbol where
  name : String
  address : Nat
  size : Nat
deriving DecidableEq, Repr

structure ObjectFile where
  text : List UInt8 := []
  /-- Functions in the order in which they were added. -/
  symbols : List ObjectSymbol := []
deriving DecidableEq, Repr

namespace ObjectFile

def functionAlign : Nat := 16

/-- The next multiple of the alignment. -/
def alignUp (align length : Nat) : Nat :=
  (length + align - 1) / align * align

/-- Where the next function goes. -/
def nextOffset (file : ObjectFile) : Nat :=
  alignUp functionAlign file.text.length

def addFunction (file : ObjectFile) (name : String) (code : List UInt8) : ObjectFile :=
  let gap := List.replicate (file.nextOffset - file.text.length) 0
  { text := file.text ++ gap ++ code
    symbols := file.symbols ++ [{ name, address := file.nextOffset, size := code.length }] }

/-- Alignment of the text section. -/
def textAlign (file : ObjectFile) : Nat :=
  if file.symbols.isEmpty then 1 else functionAlign

end ObjectFile

end GraphJit
