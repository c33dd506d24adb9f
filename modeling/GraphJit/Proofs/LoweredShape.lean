import GraphJit.Lowering.Function
import GraphJit.Proofs.Footprints
import GraphJit.Proofs.MatchingItems
import Mathlib.Data.List.Forall2

/-! # The shape of lowered code

Lowering the same operations for two targets, which differ in the homes of the
locals and in the frame, goes through the same steps. `Similar` says once which
steps there are: instructions on scratch registers, accesses of operands, moves of
arguments to and from the stack, saved registers, jumps, and near jumps over a few
of these. Everything else about lowered code follows from it by induction: no faults,
how long the code can be, what it may write, and that both targets accept or refuse
alike if they do so for every single access.
-/

namespace GraphJit

/-- The operation with other operands. -/
def Operation.over (image : Operand → Operand) (op : Operation) : Operation :=
  { op with
    destination := op.destination.map image
    sources := op.sources.map image }

@[simp] theorem Operation.over_id (op : Operation) : op.over id = op := by
  simp [Operation.over]

def Block.over (image : Operand → Operand) (block : Block) : Block :=
  { block with operations := block.operations.map (Operation.over image) }

@[simp] theorem Block.over_id (block : Block) : block.over id = block := by
  rw [Block.over, List.map_id'' Operation.over_id]

theorem Graph.blocks_over_id (graph : Graph) : graph.blocks = graph.blocks.map (Block.over id) := by
  rw [funext Block.over_id, Array.map_id']

namespace Lowering

open X64 Code

/-! ## Sequences of emissions -/

theorem sequence_nil : sequence [] = .ok [] := rfl

theorem sequence_cons (part : Emission) (parts : List Emission) : sequence (part :: parts) = (do
      let items ← part
      return items ++ (← sequence parts)) := by
  rw [sequence, List.mapM_cons]
  cases part with
  | error failure => rfl
  | ok items =>
    change (parts.mapM id >>= fun rest => .ok (items :: rest)) >>= _ = _
    rw [sequence]
    cases parts.mapM id with
    | error failure => rfl
    | ok rest => rfl

theorem sequence_single (emission : Emission) : sequence [emission] = emission := by
  rw [sequence_cons, sequence_nil]
  cases emission with
  | error failure => rfl
  | ok items => exact congrArg Except.ok (List.append_nil items)

theorem sequence_append (parts others : List Emission) : sequence (parts ++ others) = (do
      let items ← sequence parts
      return items ++ (← sequence others)) := by
  induction parts with
  | nil =>
    rw [List.nil_append, sequence_nil]
    cases sequence others <;> rfl
  | cons part parts ih =>
    rw [List.cons_append, sequence_cons, sequence_cons, ih]
    cases part with
    | error failure => rfl
    | ok items =>
      cases sequence parts with
      | error failure => rfl
      | ok rest =>
        cases sequence others with
        | error failure => rfl
        | ok last =>
          change Except.ok (items ++ (rest ++ last)) = Except.ok (items ++ rest ++ last)
          rw [List.append_assoc]

theorem of_both {first second : Emission} {items : List Item}
    (hitems : (do let a ← first; return a ++ (← second)) = Except.ok items) :
    ∃ a b, first = .ok a ∧ second = .ok b ∧ items = a ++ b := by
  obtain ⟨a, hfirst, hrest⟩ := of_bind hitems
  obtain ⟨b, hsecond, hlast⟩ := of_bind hrest
  cases hlast
  exact ⟨a, b, hfirst, hsecond, rfl⟩

theorem of_sequence_cons {part : Emission} {parts : List Emission} {items : List Item}
    (hitems : sequence (part :: parts) = .ok items) :
    ∃ a b, part = .ok a ∧ sequence parts = .ok b ∧ items = a ++ b := by
  rw [sequence_cons] at hitems
  exact of_both hitems

/-! ## Registers and instructions -/

/-- Registers that operations are computed in. -/
def scratchNames : List HostRegister := [.rax, .rcx, .rdx, .xmm0, .xmm1]

/-- Registers that the code of an operation may write. -/
inductive Target.Writable (target : Target) (name : HostRegister) : Prop
  | scratch (hname : name ∈ scratchNames)
  | argument (hname : name ∈ target.convention.gpArguments ++ target.convention.vecArguments)
  | home {id : Nat} (hhome : target.allocation.location? id = some (.register name))

namespace Target.Writable

variable {target : Target}

theorem rax : target.Writable .rax := .scratch (by decide)

theorem rcx : target.Writable .rcx := .scratch (by decide)

theorem xmm0 : target.Writable .xmm0 := .scratch (by decide)

theorem xmm1 : target.Writable .xmm1 := .scratch (by decide)

theorem scratchOf (isFloat : Bool) : target.Writable (scratchOf isFloat) := by
  cases isFloat
  · exact rax
  · exact xmm0

end Target.Writable

/-- Whether an instruction goes on, sets scratch registers alone, and stores at most a word,
where the count register points. -/
def isScratch (instr : Instr) : Bool :=
  !instr.isControl && instr.written.all (scratchNames.contains ·) &&
    instr.stored?.all fun stored => stored.1.base = Gpr.rcx && stored.2 ≤ 8

/-- An instruction that stores a word relative to a register. -/
structure Stores (base : HostRegister) (disp : BitVec 32) (instr : Instr) : Prop where
  written : instr.written = []
  stored : ∃ place bytes, instr.stored? = some (place, bytes) ∧ nameOf place.base = base ∧
    place.displacement = disp ∧ bytes ≤ 8
  total : instr.isTotal = true

/-- A result, or the refusal of something unsupported. -/
abbrev Supported {α : Type} : Outcome α → Prop :=
  FailsOnly fun failure => ∃ cause, failure = .error (.unsupported cause)

theorem supported_unsupported {α : Type} (cause : Unsupported) :
    Supported (unsupported cause : Outcome α) :=
  failsOnly_error ⟨cause, rfl⟩

/-! ## Similar emissions -/

/-- Two targets, what stands for an operand at the second one, the classes that operands fit,
and the offsets of outgoing arguments. -/
structure Pairing where
  first : Target
  second : Target
  image : Operand → Operand := id
  fits : Operand → Bool → Prop := fun _ _ => True
  outgoing : Nat → Prop := fun _ => True

/-- What code is made of: instructions alone, near jumps over some as well, or anything. -/
inductive Grade where
  | instrs
  | skips
  | any

/-- Emissions made in the same way for two targets, with an upper bound on the number of items.
Every operand is accessed in a class that it fits. -/
inductive Similar (p : Pairing) : Grade → Nat → Emission → Emission → Prop
  | instr {grade : Grade} {machine : Assembler.Result Instr} {instr : Instr}
      (hmach : machine = .ok instr) (hinstr : isScratch instr = true) :
      Similar p grade 1 (emit machine) (emit machine)
  | passed {grade : Grade} {off : Nat} {instr : Instr} (hoff : p.outgoing off)
      (hinstr : Stores .rsp (BitVec.ofNat 32 off) instr) :
      Similar p grade 1 (emit (.ok instr)) (emit (.ok instr))
  | unsupported {grade : Grade} {n : Nat} (cause other : Unsupported) :
      Similar p grade n (unsupported cause) (unsupported other)
  | fetch {grade : Grade} {isFloat : Bool} {opnd : Operand} {dst : HostRegister}
      (hfits : p.fits opnd isFloat) (hdst : p.first.Writable dst) :
      Similar p grade 2 (p.first.fetch isFloat opnd dst) (p.second.fetch isFloat (p.image opnd) dst)
  | keep {grade : Grade} {isFloat : Bool} {dest : Operand} {src : HostRegister}
      (hfits : p.fits dest isFloat) :
      Similar p grade 1 (p.first.keep isFloat dest src) (p.second.keep isFloat (p.image dest) src)
  | takeStack {grade : Grade} {dest : Operand} {off : Nat}
      (hfits : p.fits dest dest.type.isFloat) (hplace : Place.stack off ∈ p.first.arguments) :
      Similar p grade 2 (p.first.takeStack dest off) (p.second.takeStack (p.image dest) off)
  | prologue : Similar p .any 40 (.ok (p.first.frame.prologue.map .instr))
      (.ok (p.second.frame.prologue.map .instr))
  | epilogue : Similar p .any 40 (.ok (p.first.frame.epilogue.map .instr))
      (.ok (p.second.frame.epilogue.map .instr))
  | enter (block : Nat) : Similar p .any 1 (.ok [.enter block]) (.ok [.enter block])
  | jump (cond : Option Condition) (target : Nat) :
      Similar p .any 1 (.ok [.jump cond target]) (.ok [.jump cond target])
  | nil {grade : Grade} : Similar p grade 0 (sequence []) (sequence [])
  | cons {grade : Grade} {m n : Nat} {a b : Emission} {as bs : List Emission}
      (first : Similar p grade m a b)
      (rest : Similar p grade n (sequence as) (sequence bs)) :
      Similar p grade (m + n) (sequence (a :: as)) (sequence (b :: bs))
  | skip {grade : Grade} (hgrade : grade ≠ .instrs) (cond : Condition) {m n : Nat}
      {xs ys as bs : List Emission} (body : Similar p .instrs m (sequence xs) (sequence ys))
      (hbody : m ≤ mostSkipped) (rest : Similar p grade n (sequence as) (sequence bs)) :
      Similar p grade (m + n + 2)
        (sequence (.ok [.openNear cond] :: (xs ++ .ok [.closeNear] :: as)))
        (sequence (.ok [.openNear cond] :: (ys ++ .ok [.closeNear] :: bs)))
  | weaken {grade : Grade} {m n : Nat} {a b : Emission} (hle : m ≤ n)
      (h : Similar p grade m a b) : Similar p grade n a b

/-! ## Failures -/

/-- What lowering may fail with: something unsupported, a register of the wrong class, an
operand without a home, or an offset in the frame that is out of range. -/
inductive Target.Failing (target : Target) (fits : Operand → Bool → Prop) : Failure → Prop
  | unsupported (cause : Unsupported) : Failing target fits (.error (.unsupported cause))
  | encoding (reg : HostRegister) (expected : RegisterClass) :
      Failing target fits (.error (.encoding (.notRegister reg expected)))
  | missing {opnd : Operand} {isFloat : Bool} {id : Nat} (hfits : fits opnd isFloat)
      (hid : opnd.localId? = some id) (hnone : target.allocation.location? id = none) :
      Failing target fits (.error (.allocation (.unplaced id)))
  | spill {id slot : Nat} {cause : Fault}
      (hhome : target.allocation.location? id = some (.spill slot))
      (hoff : target.frame.spillOffset slot = .error cause) : Failing target fits (.fault cause)
  | incoming {off : Nat} {cause : Fault} (hplace : Place.stack off ∈ target.arguments)
      (hoff : target.frame.incomingOffset off = .error cause) :
      Failing target fits (.fault cause)

section Failing

open Assembler
/-- Assembling fails because of a register only. -/
abbrev OfRegisters {α : Type} : Assembler.Result α → Prop :=
  FailsOnly fun cause => ∃ reg expected, cause = .notRegister reg expected

variable {target : Target} {fits : Operand → Bool → Prop} {opnd : Operand} {isFloat : Bool}
  {src dst : HostRegister} {width : Width}

theorem ofRegisters_indexIn {bank : Nat} {other expected : RegisterClass} :
    OfRegisters (indexIn bank other expected src) := by
  unfold indexIn
  intro cause hcause
  split at hcause
  · split at hcause
    · cases hcause
    · cases hcause
      exact ⟨_, _, rfl⟩
  · cases hcause
    exact ⟨_, _, rfl⟩

theorem ofRegisters_word : OfRegisters (word width src) :=
  ofRegisters_indexIn.bind fun _ _ => failsOnly_ok _

theorem ofRegisters_vector : OfRegisters (vector src) :=
  ofRegisters_indexIn.bind fun _ _ => failsOnly_ok _

theorem ofRegisters_movImm {value : BitVec 64} : OfRegisters (movImm width dst value) := by
  refine ofRegisters_word.bind fun dst _ => ?_
  cases width <;> exact failsOnly_ok _

theorem ofRegisters_both {α β : Type} {first : Assembler.Result α} {second : Assembler.Result β}
    {build : α → β → Instr} (hfirst : OfRegisters first) (hsecond : OfRegisters second) :
    OfRegisters (do let a ← first; return build a (← second)) :=
  hfirst.bind fun _ _ => hsecond.bind fun _ _ => failsOnly_ok _

theorem ofRegisters_movToXmm : OfRegisters (movToXmm width dst src) :=
  ofRegisters_both ofRegisters_vector ofRegisters_word

theorem failsOnly_liftM {α : Type} {allowed : Failure → Prop} {result : Except Fault α}
    (hresult : ∀ cause, result = .error cause → allowed (.fault cause)) :
    FailsOnly allowed (liftM result : Outcome α) := by
  cases result with
  | ok a => exact failsOnly_ok a
  | error cause => exact failsOnly_error (hresult cause rfl)

theorem failsOnly_cons {allowed : Failure → Prop} {part : Emission} {parts : List Emission}
    (hpart : FailsOnly allowed part) (hparts : FailsOnly allowed (sequence parts)) :
    FailsOnly allowed (sequence (part :: parts)) := by
  rw [sequence_cons]
  exact hpart.bind fun _ _ => hparts.bind fun _ _ => failsOnly_ok _

namespace Target

theorem of_location {home : Location} (hloc : target.location opnd = .ok home) :
    ∃ id, opnd.localId? = some id ∧ target.allocation.location? id = some home := by
  cases opnd with
  | constant bits type => cases hloc
  | register guest type => cases hloc
  | localVar id type =>
    rw [location] at hloc
    split at hloc
    next known hknown =>
      cases hloc
      exact ⟨id, rfl, hknown⟩
    next => cases hloc

theorem failsOnly_emit {machine : Assembler.Result Instr} (hmach : OfRegisters machine) :
    FailsOnly (target.Failing fits) (emit machine) := by
  cases machine with
  | ok instr => exact failsOnly_ok _
  | error found =>
    obtain ⟨reg, expected, rfl⟩ := hmach found rfl
    exact failsOnly_error (.encoding reg expected)

theorem failsOnly_moveAs (isFloat : Bool) :
    FailsOnly (target.Failing fits) (emit (moveAs isFloat width dst src)) := by
  cases isFloat with
  | false => exact failsOnly_emit (ofRegisters_both ofRegisters_word ofRegisters_word)
  | true => exact failsOnly_emit (ofRegisters_both ofRegisters_vector ofRegisters_vector)

theorem failsOnly_loadAs {base : HostRegister} {disp : BitVec 32} :
    FailsOnly (target.Failing fits) (emit (loadAs isFloat width dst base disp)) := by
  cases isFloat with
  | false => exact failsOnly_emit (ofRegisters_both ofRegisters_word ofRegisters_word)
  | true => exact failsOnly_emit (ofRegisters_both ofRegisters_vector ofRegisters_word)

theorem failsOnly_storeAs (isFloat : Bool) {base : HostRegister} {disp : BitVec 32} :
    FailsOnly (target.Failing fits) (emit (storeAs isFloat width base disp src)) := by
  cases isFloat with
  | false => exact failsOnly_emit (ofRegisters_both ofRegisters_word ofRegisters_word)
  | true => exact failsOnly_emit (ofRegisters_both ofRegisters_vector ofRegisters_word)

section Access

variable (hfits : fits opnd isFloat)
include hfits

/-- The home may be missing or out of reach. -/
theorem failsOnly_atHome {inRegister : HostRegister → Emission} {inSlot : BitVec 32 → Emission}
    (hreg : ∀ reg, FailsOnly (target.Failing fits) (inRegister reg))
    (hslot : ∀ disp, FailsOnly (target.Failing fits) (inSlot disp)) :
    FailsOnly (target.Failing fits) (target.atHome opnd inRegister inSlot) := by
  have hloc : FailsOnly (target.Failing fits) (target.location opnd) := by
    cases opnd with
    | constant bits type => exact failsOnly_error (.unsupported _)
    | register guest type => exact failsOnly_error (.unsupported _)
    | localVar id type =>
      rw [location]
      split
      next => exact failsOnly_ok _
      next hnone => exact failsOnly_error (.missing hfits rfl hnone)
  refine hloc.bind fun home hhome => ?_
  obtain ⟨id, -, hplaced⟩ := of_location hhome
  cases home with
  | register reg => exact hreg reg
  | spill slot =>
    exact (failsOnly_liftM fun _ => .spill hplaced).bind fun disp _ => hslot disp

theorem failsOnly_fetch : FailsOnly (target.Failing fits) (target.fetch isFloat opnd dst) := by
  rw [fetch]
  split
  · refine .ite ?_ (failsOnly_emit ofRegisters_movImm)
    exact failsOnly_cons (failsOnly_emit ofRegisters_movImm)
      (failsOnly_cons (failsOnly_emit ofRegisters_movToXmm) (failsOnly_ok _))
  · exact failsOnly_atHome hfits (fun _ => failsOnly_moveAs _) fun _ => failsOnly_loadAs

theorem failsOnly_keep : FailsOnly (target.Failing fits) (target.keep isFloat opnd src) :=
  failsOnly_atHome hfits (fun _ => failsOnly_moveAs _) fun _ => failsOnly_storeAs _

theorem failsOnly_takeStack {off : Nat} (hplace : Place.stack off ∈ target.arguments) :
    FailsOnly (target.Failing fits) (target.takeStack opnd off) := by
  refine (failsOnly_liftM fun _ => .incoming hplace).bind fun disp _ => ?_
  refine failsOnly_cons (failsOnly_emit (failsOnly_ok _)) (failsOnly_cons ?_ (failsOnly_ok _))
  refine failsOnly_atHome hfits (fun dst => .ite ?_ (failsOnly_moveAs false)) fun _ =>
    failsOnly_storeAs false
  exact failsOnly_emit ofRegisters_movToXmm

end Access

end Target

end Failing

/-- The offsets in a target's frame are within range. -/
structure Target.Sized (target : Target) : Prop where
  spills : ∀ {id slot : Nat}, target.allocation.location? id = some (.spill slot) →
    ∃ disp, target.frame.spillOffset slot = .ok disp
  incoming : ∀ {off : Nat}, Place.stack off ∈ target.arguments →
    ∃ disp, target.frame.incomingOffset off = .ok disp

section Similar

variable {p : Pairing} {grade : Grade} {n : Nat} {a b : Emission}

theorem Similar.failsOnly (h : Similar p grade n a b) : FailsOnly (p.first.Failing p.fits) a := by
  induction h with
  | instr hmach _ =>
    cases hmach
    exact failsOnly_ok _
  | passed _ _ => exact failsOnly_ok _
  | unsupported cause _ => exact failsOnly_error (.unsupported cause)
  | fetch h _ => exact Target.failsOnly_fetch h
  | keep h => exact Target.failsOnly_keep h
  | takeStack h hplace => exact Target.failsOnly_takeStack h hplace
  | prologue | epilogue | enter | jump | nil => exact failsOnly_ok _
  | cons _ _ ihfirst ihrest => exact failsOnly_cons ihfirst ihrest
  | skip _ _ _ _ _ ihbody ihrest =>
    refine failsOnly_cons (failsOnly_ok _) ?_
    rw [sequence_append]
    exact ihbody.bind fun _ _ =>
      (failsOnly_cons (failsOnly_ok _) ihrest).bind fun _ _ => failsOnly_ok _
  | weaken _ _ ih => exact ih

theorem Similar.faultless (hsized : p.first.Sized) (h : Similar p grade n a b) : Faultless a := by
  rintro ⟨cause, hcause⟩
  cases h.failsOnly _ hcause with
  | spill hhome hoff =>
    obtain ⟨disp, hfound⟩ := hsized.spills hhome
    cases hfound.symm.trans hoff
  | incoming hplace hoff =>
    obtain ⟨disp, hfound⟩ := hsized.incoming hplace
    cases hfound.symm.trans hoff

end Similar

/-- Two targets accept or refuse every fitting access alike. -/
structure Agree (p : Pairing) : Prop where
  fetch : ∀ {opnd isFloat}, p.fits opnd isFloat → ∀ dst,
    (p.first.fetch isFloat opnd dst).isOk = (p.second.fetch isFloat (p.image opnd) dst).isOk
  keep : ∀ {dest isFloat}, p.fits dest isFloat → ∀ src,
    (p.first.keep isFloat dest src).isOk = (p.second.keep isFloat (p.image dest) src).isOk
  takeStack : ∀ {dest}, p.fits dest dest.type.isFloat → ∀ {off},
    Place.stack off ∈ p.first.arguments →
      (p.first.takeStack dest off).isOk = (p.second.takeStack (p.image dest) off).isOk

theorem Agree.refl (target : Target) : Agree { first := target, second := target } where
  fetch _ _ := rfl
  keep _ _ := rfl
  takeStack _ _ _ := rfl

end Lowering

end GraphJit
