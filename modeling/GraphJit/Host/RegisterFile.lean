import GraphJit.Host.RegisterSet

/-! # Handing out registers

A register file hands out the registers of a given set, lowest first, and
remembers the local that each was given to. Registers are never given back.
-/

namespace GraphJit

/-- Why no register was handed out. -/
inductive RegisterFileError where
  | noneLeft (bank : Nat)
  | invalidBank (bank : Nat)
deriving DecidableEq, Repr

def RegisterFileError.message : RegisterFileError → String
  | noneLeft bank => "no register left in bank " ++ toString bank
  | invalidBank bank => "bank " ++ toString bank ++ " does not exist"

structure RegisterFile where
  allocatable : RegisterSet
  owned : RegisterSet := {}
  /-- Registers handed out and their owners, the latest first. -/
  owners : List (HostRegister × Nat) := []
deriving Repr

namespace RegisterFile

/-- Hand out the lowest free register of a bank. -/
def allocate (file : RegisterFile) (bank owner : Nat) :
    Except RegisterFileError (HostRegister × RegisterFile) :=
  if 2 ≤ bank then .error (.invalidBank bank)
  else
    match (file.allocatable.diff file.owned).first? bank with
    | none => .error (.noneLeft bank)
    | some register =>
      .ok (register,
        { file with
          owned := file.owned.insert register
          owners := (register, owner) :: file.owners })

/-- The local a register was given to. -/
def owner? (file : RegisterFile) (register : HostRegister) : Option Nat :=
  file.owners.lookup register

/-- How many registers of a bank are owned, and how many there are to hand out. -/
def usage (file : RegisterFile) (bank : Nat) : Nat × Nat :=
  ((file.owned.mask bank).count, (file.allocatable.mask bank).count)

end RegisterFile

end GraphJit
