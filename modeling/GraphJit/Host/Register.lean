/-! # Host registers

A host register is named by a bank and a number. Bank 0 holds the sixteen
general purpose registers, bank 1 the vector registers. Other banks and numbers
can be written down but name nothing.
-/

namespace GraphJit

structure HostRegister where
  bank : Nat
  id : Nat
deriving DecidableEq, Repr

namespace HostRegister

def gpBank : Nat := 0

def vecBank : Nat := 1

def gp (id : Nat) : HostRegister := ⟨gpBank, id⟩

def xmm (id : Nat) : HostRegister := ⟨vecBank, id⟩

def isGp (register : HostRegister) : Bool :=
  register.bank == gpBank

def gpNames : List String :=
  ["rax", "rcx", "rdx", "rbx", "rsp", "rbp", "rsi", "rdi",
    "r8", "r9", "r10", "r11", "r12", "r13", "r14", "r15"]

/-- The usual name, or bank and number if the register does not exist. -/
def text (register : HostRegister) : String :=
  let unnamed := "r" ++ toString register.bank ++ ":" ++ toString register.id
  if register.bank = gpBank then gpNames[register.id]?.getD unnamed
  else if register.bank = vecBank then "xmm" ++ toString register.id
  else unnamed

def rax : HostRegister := gp 0
def rcx : HostRegister := gp 1
def rdx : HostRegister := gp 2
def rbx : HostRegister := gp 3
def rsp : HostRegister := gp 4
def rbp : HostRegister := gp 5
def rsi : HostRegister := gp 6
def rdi : HostRegister := gp 7
def r8 : HostRegister := gp 8
def r9 : HostRegister := gp 9
def r10 : HostRegister := gp 10
def r11 : HostRegister := gp 11
def r12 : HostRegister := gp 12
def r13 : HostRegister := gp 13
def r14 : HostRegister := gp 14
def r15 : HostRegister := gp 15
def xmm0 : HostRegister := xmm 0
def xmm1 : HostRegister := xmm 1

end HostRegister

end GraphJit
