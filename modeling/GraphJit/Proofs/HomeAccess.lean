import GraphJit.Proofs.LoweredOperations

/-! # Accesses through homes

An access is accepted if its operand has a home, or is a constant where it is only
read, and if the registers involved are of the class of the access. A spilled local
can be accessed in both classes; one in a register only in its own.
-/

namespace GraphJit.Lowering

open X64 Code Target
open HostRegister (rax rsp)

/-! ## Register operands -/

/-- Whether a name is that of a general purpose register. -/
def isGpr (reg : HostRegister) : Bool :=
  reg.bank == HostRegister.gpBank && decide (reg.id < 16)

/-- Whether a name is that of a vector register. -/
def isXmm (reg : HostRegister) : Bool :=
  reg.bank == HostRegister.vecBank && decide (reg.id < 16)

/-- Whether a name is that of a register of a class. -/
def ofClass (isFloat : Bool) (reg : HostRegister) : Bool :=
  if isFloat then isXmm reg else isGpr reg

theorem isOk_indexIn (bank : Nat) (other expected : RegisterClass) (reg : HostRegister) :
    (Assembler.indexIn bank other expected reg).isOk
      = (reg.bank == bank && decide (reg.id < 16)) := by
  rw [Assembler.indexIn]
  split
  next hbank =>
    split
    next hbound => simp [hbank, hbound, Except.isOk, Except.toBool]
    next hbound => simp [hbound, Except.isOk, Except.toBool]
  next hbank => simp [hbank, Except.isOk, Except.toBool]

theorem isOk_one {ε α β : Type} (first : Except ε α) (result : α → β) :
    (do return result (← first) : Except ε β).isOk = first.isOk := by
  cases first <;> rfl

theorem isOk_word (width : Width) (reg : HostRegister) :
    (Assembler.word width reg).isOk = isGpr reg :=
  (isOk_one _ _).trans (isOk_indexIn ..)

theorem isOk_vector (reg : HostRegister) : (Assembler.vector reg).isOk = isXmm reg :=
  (isOk_one _ _).trans (isOk_indexIn ..)

/-- Two checks in a row. -/
theorem isOk_both {ε α β γ : Type} (first : Except ε α) (second : Except ε β) (result : α → β → γ) :
    (do let a ← first; return result a (← second) : Except ε γ).isOk
      = (first.isOk && second.isOk) := by
  cases first <;> cases second <;> rfl

theorem isOk_movImm (width : Width) (dst : HostRegister) (value : BitVec 64) :
    (Assembler.movImm width dst value).isOk = isGpr dst := by
  rw [← isOk_word width, Assembler.movImm]
  cases width <;> cases Assembler.word _ dst <;> rfl

theorem isOk_moveAs (isFloat : Bool) (width : Width) (dst src : HostRegister) :
    (moveAs isFloat width dst src).isOk = (ofClass isFloat dst && ofClass isFloat src) := by
  cases isFloat with
  | false => exact (isOk_both _ _ _).trans (by rw [isOk_word, isOk_word]; rfl)
  | true => exact (isOk_both _ _ _).trans (by rw [isOk_vector, isOk_vector]; rfl)

theorem isOk_loadAs (isFloat : Bool) (width : Width) (dst base : HostRegister) (disp : BitVec 32) :
    (loadAs isFloat width dst base disp).isOk = (isGpr base && ofClass isFloat dst) := by
  cases isFloat with
  | false => exact (isOk_both _ _ _).trans (by rw [isOk_word, isOk_word]; rfl)
  | true => exact (isOk_both _ _ _).trans (by rw [isOk_vector, isOk_word, Bool.and_comm]; rfl)

theorem isOk_storeAs (isFloat : Bool) (width : Width) (base : HostRegister) (disp : BitVec 32)
    (src : HostRegister) :
    (storeAs isFloat width base disp src).isOk = (isGpr base && ofClass isFloat src) := by
  cases isFloat with
  | false => exact (isOk_both _ _ _).trans (by rw [isOk_word, isOk_word]; rfl)
  | true => exact (isOk_both _ _ _).trans (by rw [isOk_vector, isOk_word, Bool.and_comm]; rfl)

theorem isOk_movToXmm (width : Width) (dst src : HostRegister) :
    (Assembler.movToXmm width dst src).isOk = (isXmm dst && isGpr src) :=
  (isOk_both _ _ _).trans (by rw [isOk_vector, isOk_word])

theorem isOk_emit (machine : Assembler.Result Instr) : (emit machine).isOk = machine.isOk := by
  cases machine <;> rfl

theorem isOk_sequence_cons (part : Emission) (parts : List Emission) :
    (sequence (part :: parts)).isOk = (part.isOk && (sequence parts).isOk) := by
  rw [sequence_cons]
  exact isOk_both _ _ _

theorem isOk_sequence_two (first second : Emission) :
    (sequence [first, second]).isOk = (first.isOk && second.isOk) := by
  rw [isOk_sequence_cons, sequence_single]

/-! ## Single accesses -/

namespace Target

/-- Whether an operand is a local with a home. -/
def homed (target : Target) : Operand → Bool
  | .localVar id _ => (target.allocation.location? id).isSome
  | _ => false

/-- Locals that fit a class and live in a register have one of that class. -/
def Housed (fits : Operand → Bool → Prop) (target : Target) : Prop :=
  ∀ ⦃id : Nat⦄ ⦃type : ValueType⦄ ⦃isFloat : Bool⦄ ⦃reg : HostRegister⦄,
    fits (.localVar id type) isFloat →
      target.allocation.location? id = some (.register reg) → ofClass isFloat reg = true

variable {fits : Operand → Bool → Prop} {target : Target} {opnd : Operand} {isFloat : Bool}

section

variable (hsized : target.Sized) (hhoused : target.Housed fits)
include hsized hhoused

/-- Access through a home is accepted if the operand has one, and both kinds of homes are as good
as each other. -/
theorem isOk_atHome (hfits : fits opnd isFloat) {inRegister : HostRegister → Emission}
    {inSlot : BitVec 32 → Emission} {accepted : Bool}
    (hreg : ∀ reg, ofClass isFloat reg = true → (inRegister reg).isOk = accepted)
    (hslot : ∀ disp, (inSlot disp).isOk = accepted) :
    (target.atHome opnd inRegister inSlot).isOk = (target.homed opnd && accepted) := by
  cases opnd with
  | constant bits type => rfl
  | register guest type => rfl
  | localVar id type =>
    rw [atHome, location, homed]
    rcases hhome : target.allocation.location? id with - | (reg | slot)
    · rfl
    · exact hreg reg (hhoused hfits hhome)
    · obtain ⟨disp, hoff⟩ := hsized.spills hhome
      change ((target.frame.spillOffset slot : Outcome _) >>= inSlot).isOk = _
      rw [hoff]
      exact hslot disp

theorem isOk_fetch (hfits : fits opnd isFloat) (dst : HostRegister) :
    (target.fetch isFloat opnd dst).isOk
      = ((opnd.isConstant || target.homed opnd) && ofClass isFloat dst) := by
  have hlocal (hnone : (if isFloat then opnd.bits? else opnd.immediate?) = none) :
      (target.fetch isFloat opnd dst).isOk = (target.homed opnd && ofClass isFloat dst) := by
    rw [fetch, hnone]
    refine isOk_atHome hsized hhoused hfits (fun reg hclass => ?_) fun disp => ?_
    · rw [isOk_emit, isOk_moveAs, hclass, Bool.and_true]
    · rw [isOk_emit, isOk_loadAs]
      rfl
  cases opnd with
  | constant bits type =>
    cases isFloat with
    | false =>
      rw [fetch]
      cases type <;> exact (isOk_emit _).trans (isOk_movImm _ _ _)
    | true =>
      change (sequence [emit _, emit _]).isOk = _
      rw [isOk_sequence_two, isOk_emit, isOk_movImm, isOk_emit, isOk_movToXmm]
      exact Bool.and_true _
  | register guest type => exact hlocal (by cases isFloat <;> rfl)
  | localVar id type => exact hlocal (by cases isFloat <;> rfl)

theorem isOk_keep (hfits : fits opnd isFloat) (src : HostRegister) :
    (target.keep isFloat opnd src).isOk = (target.homed opnd && ofClass isFloat src) := by
  refine isOk_atHome hsized hhoused hfits (fun reg hclass => ?_) fun disp => ?_
  · rw [isOk_emit, isOk_moveAs, hclass, Bool.true_and]
  · rw [isOk_emit, isOk_storeAs]
    rfl

theorem isOk_takeStack (hfits : fits opnd opnd.type.isFloat) {off : Nat}
    (hplace : Place.stack off ∈ target.arguments) :
    (target.takeStack opnd off).isOk = target.homed opnd := by
  obtain ⟨disp, hinc⟩ := hsized.incoming hplace
  rw [takeStack, hinc]
  change (sequence [emit (loadAs false _ rax rsp disp), _]).isOk = _
  rw [isOk_sequence_two, isOk_emit, isOk_loadAs]
  refine (Bool.true_and _).trans ?_
  rw [← Bool.and_true (target.homed opnd)]
  refine isOk_atHome hsized hhoused hfits (fun reg hclass => ?_) fun disp => ?_
  · rw [ofClass] at hclass
    split
    next hfloat =>
      rw [if_pos hfloat] at hclass
      rw [isOk_emit, isOk_movToXmm, hclass]
      rfl
    next hfloat =>
      rw [if_neg hfloat] at hclass
      rw [isOk_emit]
      exact (isOk_moveAs false ..).trans (Bool.and_eq_true_iff.mpr ⟨hclass, rfl⟩)
  · rw [isOk_emit]
    exact isOk_storeAs false ..

end

end Target

/-- Targets that give homes to the same locals agree on every access. -/
theorem agree_of_housed {fits : Operand → Bool → Prop} {s t : Target} (hs : s.Sized) (ht : t.Sized)
    (hside : Alongside { first := s, second := t, fits }) (hsHoused : s.Housed fits)
    (htHoused : t.Housed fits)
    (hhomes : ∀ id, (s.allocation.location? id).isSome = (t.allocation.location? id).isSome) :
    Agree { first := s, second := t, fits } := by
  have hhomed (opnd : Operand) : s.homed opnd = t.homed opnd := by
    cases opnd with
    | constant bits type => rfl
    | register guest type => rfl
    | localVar id type => exact hhomes id
  constructor <;> dsimp only [id]
  · intro opnd isFloat hfits dst
    rw [isOk_fetch hs hsHoused hfits, isOk_fetch ht htHoused hfits, hhomed]
  · intro dest isFloat hfits src
    rw [isOk_keep hs hsHoused hfits, isOk_keep ht htHoused hfits, hhomed]
  · intro dest hfits off hplace
    rw [isOk_takeStack hs hsHoused hfits hplace,
      isOk_takeStack ht htHoused hfits (hside.arguments ▸ hplace), hhomed]

end GraphJit.Lowering
