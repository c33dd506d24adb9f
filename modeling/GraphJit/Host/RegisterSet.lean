import GraphJit.Host.Register

/-! # Sets of host registers

A set keeps one mask of 32 bits for each of the two banks. Registers outside
the masks are never members, and adding one changes nothing.
-/

namespace GraphJit

/-- A mask of the registers of one bank. -/
abbrev Mask := BitVec 32

namespace Mask

/-- Members of a mask in ascending order. -/
def ids (mask : Mask) : List Nat :=
  (List.range 32).filter mask.getLsbD

def count (mask : Mask) : Nat :=
  mask.ids.length

end Mask

structure RegisterSet where
  gp : Mask := 0
  vec : Mask := 0
deriving DecidableEq, Repr

namespace RegisterSet

/-- The mask of a bank; banks that do not exist are empty. -/
def mask (set : RegisterSet) (bank : Nat) : Mask :=
  if bank = HostRegister.gpBank then set.gp
  else if bank = HostRegister.vecBank then set.vec
  else 0

def contains (set : RegisterSet) (register : HostRegister) : Bool :=
  (set.mask register.bank).getLsbD register.id

/-- The set of one register. -/
def singleton (register : HostRegister) : RegisterSet :=
  let bit : Mask := if register.id < 32 then BitVec.twoPow 32 register.id else 0
  if register.bank = HostRegister.gpBank then { gp := bit }
  else if register.bank = HostRegister.vecBank then { vec := bit }
  else {}

def union (a b : RegisterSet) : RegisterSet :=
  ⟨a.gp ||| b.gp, a.vec ||| b.vec⟩

def inter (a b : RegisterSet) : RegisterSet :=
  ⟨a.gp &&& b.gp, a.vec &&& b.vec⟩

def diff (a b : RegisterSet) : RegisterSet :=
  ⟨a.gp &&& ~~~b.gp, a.vec &&& ~~~b.vec⟩

def insert (set : RegisterSet) (register : HostRegister) : RegisterSet :=
  set.union (singleton register)

def erase (set : RegisterSet) (register : HostRegister) : RegisterSet :=
  set.diff (singleton register)

def ofList (registers : List HostRegister) : RegisterSet :=
  registers.foldl insert {}

/-- Members in a bank, in ascending order. -/
def inBank (set : RegisterSet) (bank : Nat) : List HostRegister :=
  (set.mask bank).ids.map fun id => ⟨bank, id⟩

/-- The lowest member in a bank. -/
def first? (set : RegisterSet) (bank : Nat) : Option HostRegister :=
  (set.inBank bank).head?

end RegisterSet

end GraphJit
