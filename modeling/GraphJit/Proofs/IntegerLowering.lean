import GraphJit.Proofs.Execution
import GraphJit.Proofs.HomeContents

/-! # Integer operations compute their results

The code of an integer operation loads its sources into scratch registers, computes
there, and stores the result in the home of the destination. This module says what
the operation should compute, and proves that running its code anywhere in a
program does so and changes nothing but the scratch registers, the flags, and the
home of the destination.
-/

namespace GraphJit

open X64 Code List HostState

/-! ## What an operation computes -/

/-- A source as an operation finds it: its width, and its value, zero extended. -/
structure Reading where
  width : Width
  value : BitVec 64
deriving DecidableEq, Repr

/-- The part of a source that an operation of a width uses. -/
def Reading.low (reading : Reading) (width : Width) : BitVec width.bits :=
  reading.value.setWidth width.bits

/-- The result of an integer operation with a destination of a width. Shift counts are taken
modulo the width; comparisons are made at the width of the first source. -/
def integerResult (width : Width) : Instruction → List Reading → Option (BitVec width.bits)
  | .add, a :: b :: _ => some (a.low width + b.low width)
  | .sub, a :: b :: _ => some (a.low width - b.low width)
  | .mul, a :: b :: _ => some (a.low width * b.low width)
  | .and, a :: b :: _ => some (a.low width &&& b.low width)
  | .or, a :: b :: _ => some (a.low width ||| b.low width)
  | .xor, a :: b :: _ => some (a.low width ^^^ b.low width)
  | .not, a :: _ => some (~~~a.low width)
  | .neg, a :: _ => some (-a.low width)
  | .shl, a :: b :: _ => some (a.low width <<< (b.value.toNat % width.bits))
  | .sar, a :: b :: _ => some ((a.low width).sshiftRight (b.value.toNat % width.bits))
  | .shr, a :: b :: _ => some (a.low width >>> (b.value.toNat % width.bits))
  | .copy, a :: _ => some (a.low width)
  | .compare cmp, a :: b :: _ =>
    some (if cmp.holds (a.low a.width) (b.low a.width) then 1 else 0)
  | .select, cond :: a :: b :: _ =>
    some (if cond.value = 0 then b.low width else a.low width)
  | .zeroExtend32, a :: _ => some ((a.low .w32).setWidth width.bits)
  | .signExtend32, a :: _ => some ((a.low .w32).signExtend width.bits)
  | _, _ => none

namespace Lowering

/-- A source in a state. -/
def Target.reading (target : Target) (cpu : Cpu) (opnd : Operand) : Reading :=
  ⟨Width.ofType opnd.type, target.valueOf cpu opnd⟩

/-! ## Code that leads from one state to another -/

/-- An emission is accepted, and its code takes every state with `pre` to one with `post`. Both
also see the state in which the operation starts. -/
def Leads (pre : Cpu → Cpu → Prop) (emission : Emission) (post : Cpu → Cpu → Prop) : Prop :=
  ∃ items, emission = .ok items ∧ ∀ (host : Host) (start cpu : Cpu), pre start cpu →
    ∃ next, host.execute false items cpu = some next ∧ post start next

namespace Leads

variable {pre mid post : Cpu → Cpu → Prop} {emission : Emission} {rest : List Emission}

theorem both {second : Emission} (hfirst : Leads pre emission mid)
    (hsecond : Leads mid second post) : Leads pre (do
      let items ← emission
      return items ++ (← second)) post := by
  obtain ⟨items, rfl, hrun⟩ := hfirst
  obtain ⟨others, rfl, hrunOthers⟩ := hsecond
  refine ⟨items ++ others, rfl, fun host start cpu hpre => ?_⟩
  obtain ⟨between, hitems, hbetween⟩ := hrun host start cpu hpre
  obtain ⟨next, hnext, hpost⟩ := hrunOthers host start between hbetween
  exact ⟨next, (Host.execute_append others hitems).trans hnext, hpost⟩

theorem cons (hfirst : Leads pre emission mid) (hrest : Leads mid (sequence rest) post) :
    Leads pre (sequence (emission :: rest)) post := by
  rw [sequence_cons]
  exact hfirst.both hrest

theorem append {parts : List Emission} (hparts : Leads pre (sequence parts) mid)
    (hrest : Leads mid (sequence rest) post) : Leads pre (sequence (parts ++ rest)) post := by
  rw [sequence_append]
  exact hparts.both hrest

theorem last (hfirst : Leads pre emission post) : Leads pre (sequence [emission]) post :=
  hfirst.cons ⟨[], rfl, fun _ _ cpu hpost => ⟨cpu, rfl, hpost⟩⟩

theorem mono (h : Leads pre emission mid) (hpost : ∀ start cpu, mid start cpu → post start cpu) :
    Leads pre emission post := by
  obtain ⟨items, hitems, hrun⟩ := h
  refine ⟨items, hitems, fun host start cpu hpre => ?_⟩
  obtain ⟨next, hnext, hmiddle⟩ := hrun host start cpu hpre
  exact ⟨next, hnext, hpost start next hmiddle⟩

theorem instr {instr : Instr} (hemit : emission = .ok [.instr instr])
    (hexec : ∀ (host : Host) (start cpu : Cpu), pre start cpu →
      ∃ next, host.exec cpu instr = some next ∧ post start next) : Leads pre emission post := by
  refine ⟨_, hemit, fun host start cpu hpre => ?_⟩
  obtain ⟨next, hnext, hpost⟩ := hexec host start cpu hpre
  refine ⟨next, ?_, hpost⟩
  rw [Host.execute, hnext]
  rfl

/-- One instruction that a near jump skips. -/
theorem skipped {cond : Condition} {instr : Instr} (hemit : emission = .ok [.instr instr])
    (hskip : ∀ start cpu, pre start cpu → cond.holds cpu.flags = true → post start cpu)
    (hinto : ∀ (host : Host) (start cpu : Cpu), pre start cpu → cond.holds cpu.flags = false →
      ∃ next, host.exec cpu instr = some next ∧ post start next) :
    Leads pre (sequence [.ok [.openNear cond], emission, .ok [.closeNear]]) post := by
  refine ⟨[.openNear cond, .instr instr, .closeNear], ?_, fun host start cpu hpre => ?_⟩
  · rw [hemit]
    rfl
  · cases hholds : cond.holds cpu.flags with
    | true =>
      refine ⟨cpu, ?_, hskip start cpu hpre hholds⟩
      rw [Host.execute, hholds]
      rfl
    | false =>
      obtain ⟨next, hnext, hpost⟩ := hinto host start cpu hpre hholds
      refine ⟨next, ?_, hpost⟩
      rw [Host.execute, hholds, Host.execute, hnext]
      rfl

end Leads

/-! ## Assertions along an operation -/

/-- A register holds a value. -/
def Holds (dividing : Bool) (reg : Gpr) (value : Cpu → BitVec 64) (start cpu : Cpu) : Prop :=
  Scratch dividing start cpu ∧ cpu.gpr reg = value start

/-- The accumulator holds a value. -/
def Accumulated (dividing : Bool) : (Cpu → BitVec 64) → Cpu → Cpu → Prop := Holds dividing Gpr.rax

/-- The accumulator and the count register hold values. -/
def Loaded (dividing : Bool) (a b : Cpu → BitVec 64) (start cpu : Cpu) : Prop :=
  Accumulated dividing a start cpu ∧ cpu.gpr Gpr.rcx = b start

/-- The accumulator holds a result at its width. -/
def Computed (dividing : Bool) {width : Width} (outcome : Cpu → Option (BitVec width.bits))
    (start cpu : Cpu) : Prop :=
  Scratch dividing start cpu ∧ outcome start = some (cpu.get width Gpr.rax)

/-- The result is in its home. -/
def Target.Stored (target : Target) (dividing : Bool) {width : Width}
    (outcome : Cpu → Option (BitVec width.bits)) (home : Location) (start next : Cpu) : Prop :=
  ∃ cpu, Computed dividing outcome start cpu ∧
    next = target.assign cpu width (cpu.gpr Gpr.rax) home

variable {dividing : Bool} {start next : Cpu} {type : ValueType} {count : Nat}

section Loading

open HostRegister (rax rcx)

variable {target : Target} {a b : Operand} (hplaced : target.Placed)
include hplaced

theorem leads_load (ha : target.Integral a) (reg : Gpr)
    (hreg : reg ∈ [Gpr.rax, Gpr.rcx]) : Leads (Scratch dividing)
      (target.fetch false a (nameOf reg)) (Holds dividing reg (target.valueOf · a)) := by
  obtain ⟨instr, hemit, hexec⟩ := Target.exists_fetch hplaced ha reg
  apply Leads.instr hemit
  intro host start cpu hscr
  refine ⟨_, hexec host cpu, hscr.set hreg _, ?_⟩
  rw [Target.valueOf_scratch hplaced ha hscr]
  exact gpr_set_self ..

/-- Loading one scratch register keeps the other. -/
theorem leads_other (hb : target.Integral b) (reg other : Gpr)
    (hother : other ∈ [Gpr.rax, Gpr.rcx]) (hne : reg ≠ other) (value : Cpu → BitVec 64) :
    Leads (Holds dividing reg value) (target.fetch false b (nameOf other)) fun start cpu =>
      Holds dividing reg value start cpu ∧ cpu.gpr other = target.valueOf start b := by
  obtain ⟨instr, hemit, hexec⟩ := Target.exists_fetch hplaced hb other
  apply Leads.instr hemit
  rintro host start cpu ⟨hscr, hvalue⟩
  refine ⟨_, hexec host cpu, ⟨hscr.set hother _, ?_⟩, ?_⟩
  · rw [← hvalue]
    exact gpr_set_of_ne hne ..
  · rw [Target.valueOf_scratch hplaced hb hscr]
    exact gpr_set_self ..

theorem leads_accumulate (ha : target.Integral a) : Leads (Scratch dividing)
      (target.fetch false a rax) (Accumulated dividing (target.valueOf · a)) :=
  leads_load hplaced ha Gpr.rax (by decide)

theorem leads_count (hb : target.Integral b) (value : Cpu → BitVec 64) :
    Leads (Accumulated dividing value) (target.fetch false b rcx)
      (Loaded dividing value (target.valueOf · b)) :=
  leads_other hplaced hb Gpr.rax Gpr.rcx (by decide) (by decide) value

theorem leads_store {id : Nat} {home : Location} (htype : type.isInteger = true)
    (hhome : target.HoldsInteger id home)
    (outcome : Cpu → Option (BitVec (Width.ofType type).bits)) :
    Leads (Computed dividing outcome) (target.keep false (.localVar id type) rax)
      (target.Stored dividing outcome home) := by
  obtain ⟨instr, hemit, hexec⟩ := Target.exists_keep hplaced htype hhome Gpr.rax
  apply Leads.instr hemit
  intro host start cpu hcomputed
  exact ⟨_, hexec host cpu, cpu, hcomputed, rfl⟩

end Loading

/-! ## Computing in the accumulator -/

theorem get_setGpr_self (cpu : Cpu) (width : Width) (reg : Gpr) (value : BitVec 64) :
    (cpu.setGpr reg value).get width reg = value.setWidth width.bits :=
  congrArg _ (gpr_set_self ..)

theorem setWidth_setWidth_bits {width : Width} (value : BitVec width.bits) :
    (value.setWidth 64).setWidth width.bits = value := by
  cases width with
  | w32 => exact (BitVec.setWidth_setWidth_of_le _ (by decide)).trans (BitVec.setWidth_eq _)
  | w64 => exact (BitVec.setWidth_eq _).trans (BitVec.setWidth_eq _)

theorem get_put_self (cpu : Cpu) (width : Width) (reg : Gpr) (value : BitVec width.bits) :
    (cpu.put width reg value).get width reg = value :=
  (get_setGpr_self ..).trans (setWidth_setWidth_bits value)

/-- An instruction that writes a word to the accumulator, and perhaps the flags. -/
theorem leads_write {pre : Cpu → Cpu → Prop} {emission : Emission} {instr : Instr} {width : Width}
    {outcome : Cpu → Option (BitVec width.bits)} {value : Cpu → BitVec 64}
    (hemit : emission = .ok [.instr instr]) (hexec : ∀ (host : Host) (cpu : Cpu), ∃ flags,
      host.exec cpu instr = some { cpu.setGpr Gpr.rax (value cpu) with flags })
    (hscr : ∀ start cpu, pre start cpu → Scratch dividing start cpu)
    (hout : ∀ start cpu, pre start cpu → outcome start = some ((value cpu).setWidth width.bits)) :
    Leads pre emission (Computed dividing outcome) := by
  apply Leads.instr hemit
  intro host start cpu hpre
  obtain ⟨flags, hnext⟩ := hexec host cpu
  refine ⟨_, hnext, ((hscr start cpu hpre).set (by decide) _).trans (.flags _ flags), ?_⟩
  rw [hout start cpu hpre]
  exact congrArg some (get_setGpr_self cpu width Gpr.rax (value cpu)).symm

/-- An instruction that writes a result of its width to the accumulator. -/
theorem leads_put {pre : Cpu → Cpu → Prop} {emission : Emission} {instr : Instr} {width : Width}
    {outcome : Cpu → Option (BitVec width.bits)} {value : Cpu → BitVec width.bits}
    (hemit : emission = .ok [.instr instr]) (hexec : ∀ (host : Host) (cpu : Cpu), ∃ flags,
      host.exec cpu instr = some { cpu.put width Gpr.rax (value cpu) with flags })
    (hscr : ∀ start cpu, pre start cpu → Scratch dividing start cpu)
    (hout : ∀ start cpu, pre start cpu → outcome start = some (value cpu)) :
    Leads pre emission (Computed dividing outcome) := by
  apply leads_write hemit hexec hscr
  intro start cpu hpre
  rw [hout start cpu hpre, ← get_setGpr_self cpu]
  exact congrArg some (get_put_self cpu width Gpr.rax (value cpu)).symm

section Instructions

variable {width : Width} {a b : Cpu → BitVec 64} {first second : Width} {rest : Cpu → List Reading}

variable {instr : Instruction} {cmp : Comparison}

theorem leads_integerOp (hop : instr ∈ [.add, .sub, .mul, .and, .or, .xor]) :
    Leads (Loaded dividing a b) (emit (integerOp instr width)) (Computed dividing fun start =>
        integerResult width instr (⟨first, a start⟩ :: ⟨second, b start⟩ :: rest start)) := by
  simp only [mem_cons, not_mem_nil, or_false] at hop
  rcases hop with rfl | rfl | rfl | rfl | rfl | rfl
  all_goals
    apply leads_put rfl (fun _ _ => ⟨_, rfl⟩) fun _ _ h => h.1.1
    intro start cpu h
    rw [integerResult, Reading.low, Reading.low, ← h.1.2, ← h.2]
    rfl

theorem count_mod (width : Width) (value : BitVec 64) :
    (value.setWidth 8).toNat % width.bits = value.toNat % width.bits := by
  rw [BitVec.toNat_setWidth]
  cases width with
  | w32 => exact Nat.mod_mod_of_dvd _ (by decide)
  | w64 => exact Nat.mod_mod_of_dvd _ (by decide)

theorem leads_shift (hop : instr ∈ [.shl, .sar, .shr]) :
    Leads (Loaded dividing a b) (emit (Assembler.shift (shiftOp instr) width HostRegister.rax))
      (Computed dividing fun start =>
        integerResult width instr (⟨first, a start⟩ :: ⟨second, b start⟩ :: rest start)) := by
  simp only [mem_cons, not_mem_nil, or_false] at hop
  rcases hop with rfl | rfl | rfl
  all_goals
    apply leads_put rfl (fun _ _ => ⟨_, rfl⟩) fun _ _ h => h.1.1
    intro start cpu h
    rw [integerResult, Reading.low, ← h.1.2, ← h.2, ← count_mod]
    rfl

theorem leads_unary {op : UnaryOp} (hop : (instr, op) ∈ [(.not, .not), (.neg, .neg)]) :
    Leads (Accumulated dividing a) (emit (Assembler.unary op width HostRegister.rax))
      (Computed dividing fun start =>
        integerResult width instr (⟨first, a start⟩ :: rest start)) := by
  simp only [mem_cons, Prod.mk.injEq, not_mem_nil, or_false] at hop
  rcases hop with ⟨rfl, rfl⟩ | ⟨rfl, rfl⟩
  all_goals
    apply leads_put rfl (fun _ _ => ⟨_, rfl⟩) (fun _ _ h => h.1)
    intro start cpu h
    rw [integerResult, Reading.low, ← h.2]
    rfl

theorem leads_zeroExtend :
    Leads (Accumulated dividing a) (emit (Assembler.mov .w32 HostRegister.rax HostRegister.rax))
      (Computed dividing fun start =>
        integerResult width .zeroExtend32 (⟨first, a start⟩ :: rest start)) := by
  apply leads_write rfl (fun _ _ => ⟨_, rfl⟩) (fun _ _ h => h.1)
  intro start cpu h
  rw [integerResult, Reading.low, ← h.2]
  cases width with
  | w32 => exact congrArg some (BitVec.setWidth_setWidth_of_le _ (by decide)).symm
  | w64 => exact congrArg some (BitVec.setWidth_eq _).symm

theorem leads_signExtend :
    Leads (Accumulated dividing a) (emit (Assembler.movsxd HostRegister.rax HostRegister.rax))
      (Computed dividing fun start =>
        integerResult width .signExtend32 (⟨first, a start⟩ :: rest start)) := by
  apply leads_write rfl (fun _ _ => ⟨_, rfl⟩) (fun _ _ h => h.1)
  intro start cpu h
  rw [integerResult, Reading.low, ← h.2]
  cases width with
  | w32 =>
    rw [setWidth_signExtend]
    exact congrArg some (BitVec.signExtend_eq _)
  | w64 => exact congrArg some (BitVec.setWidth_eq _).symm

theorem setWidth_replaceLow (old : BitVec 64) (low : BitVec 8) :
    (replaceLow old low).setWidth 8 = low := by
  ext j hj
  rw [replaceLow, BitVec.getElem_setWidth, BitVec.getLsbD_or, BitVec.getLsbD_shiftLeft,
    BitVec.getLsbD_setWidth]
  simp [hj, show j < 64 by omega]

/-- The flags are those of a comparison. -/
def Compared (dividing : Bool) (width : Width) (a b : Cpu → BitVec 64) (start cpu : Cpu) : Prop :=
  Scratch dividing start cpu ∧
    cpu.flags = .ofSub ((a start).setWidth width.bits) ((b start).setWidth width.bits)

theorem leads_cmp :
    Leads (Loaded dividing a b) (emit (Assembler.alu .cmp width HostRegister.rax HostRegister.rcx))
      (Compared dividing width a b) := by
  apply Leads.instr rfl
  rintro host start cpu ⟨⟨hscr, ha⟩, hb⟩
  refine ⟨_, rfl, hscr.trans (.flags cpu _), ?_⟩
  rw [← ha, ← hb]
  rfl

/-- The low byte of the accumulator tells whether a comparison holds. -/
def Decided (dividing : Bool) (cmp : Comparison) (width : Width) (a b : Cpu → BitVec 64)
    (start cpu : Cpu) : Prop :=
  Scratch dividing start cpu ∧ (cpu.gpr Gpr.rax).setWidth 8
    = if cmp.holds ((a start).setWidth width.bits) ((b start).setWidth width.bits) then 1
      else 0

theorem leads_setcc : Leads (Compared dividing width a b)
      (emit (Assembler.setcc (Condition.ofIntegers cmp) HostRegister.rax))
      (Decided dividing cmp width a b) := by
  apply @Leads.instr _ _ _ (.setcc (.ofIntegers cmp) Gpr.rax) rfl
  rintro host start cpu ⟨hscr, hflags⟩
  refine ⟨_, rfl, hscr.set (by decide) _, ?_⟩
  change ((cpu.toHostState.set Gpr.rax _).gpr Gpr.rax).setWidth 8 = _
  rw [gpr_set_self, setWidth_replaceLow, hflags, Condition.holds_ofIntegers]

theorem leads_movzx8 : Leads (Decided dividing cmp first a b)
      (emit (Assembler.movzx8 HostRegister.rax HostRegister.rax)) (Computed dividing fun start =>
        integerResult width (.compare cmp)
          (⟨first, a start⟩ :: ⟨second, b start⟩ :: rest start)) := by
  apply @leads_write _ _ _ (.movzx8 Gpr.rax Gpr.rax) _ _ _ rfl (fun _ _ => ⟨_, rfl⟩) fun _ _ h => h.1
  rintro start cpu ⟨-, hbyte⟩
  rw [hbyte]
  change some (if cmp.holds ((a start).setWidth first.bits) ((b start).setWidth first.bits)
    then 1 else 0) = _
  cases cmp.holds _ _ <;> cases width <;> rfl

end Instructions

/-! ## Selection -/

namespace Target

variable {target : Target}

theorem cut_valueOf (cpu : Cpu) (opnd : Operand) :
    (Width.ofType opnd.type).cut (target.valueOf cpu opnd) = target.valueOf cpu opnd := by
  have hcut (width : Width) (value : BitVec 64) : width.cut (width.cut value) = width.cut value :=
    cut_cut (by cases width <;> rfl) value
  cases opnd with
  | constant bits type => exact hcut _ _
  | register guest type => rw [valueOf]; cases Width.ofType _ <;> rfl
  | localVar id type =>
    rw [valueOf]
    cases target.allocation.location? id with
    | none => cases Width.ofType _ <;> rfl
    | some home => exact hcut _ _

end Target

/-- A word that fits a width is zero exactly if it is zero at that width. -/
theorem setWidth_eq_zero_iff {width : Width} {value : BitVec 64} (hcut : width.cut value = value) :
    value.setWidth width.bits = 0 ↔ value = 0 := by
  cases width with
  | w64 => rw [BitVec.setWidth_eq]
  | w32 =>
    constructor
    · intro hzero
      rw [← hcut, Width.cut, show value.setWidth 32 = 0 from hzero]
      rfl
    · rintro rfl
      rfl

/-- Both scratch registers are loaded, and the flags tell whether the condition is zero. -/
def Tested (dividing : Bool) (value cond : Cpu → BitVec 64) (start cpu : Cpu) : Prop :=
  Accumulated dividing value start cpu ∧ cpu.flags.zero = decide (cond start = 0)

section Selection

open HostRegister (rax rcx)

variable {target : Target} {cond a b : Operand} (hplaced : target.Placed)
include hplaced

theorem leads_choose (ha : target.Integral a) (value : Cpu → BitVec 64) :
    Leads (Holds dividing Gpr.rcx value) (target.fetch false a rax)
      (Loaded dividing (target.valueOf · a) value) :=
  (leads_other hplaced ha Gpr.rcx Gpr.rax (by decide) (by decide) value).mono
    fun _ _ hheld => ⟨⟨hheld.1.1, hheld.2⟩, hheld.1.2⟩

omit hplaced in
theorem leads_test (value : Cpu → BitVec 64) : Leads (Loaded dividing value (target.valueOf · cond))
      (emit (Assembler.alu .test (Width.ofType cond.type) rcx rcx))
      (Tested dividing value (target.valueOf · cond)) := by
  apply @Leads.instr _ _ _ (.alu .test (Width.ofType cond.type) Gpr.rcx Gpr.rcx) rfl
  rintro host start cpu ⟨⟨hscr, hvalue⟩, hcond⟩
  refine ⟨_, rfl, ⟨hscr.trans (.flags cpu _), hvalue⟩, ?_⟩
  change (cpu.get _ Gpr.rcx &&& cpu.get _ Gpr.rcx == 0) = _
  rw [BitVec.and_self, Cpu.get, hcond, Bool.eq_iff_iff, beq_iff_eq, decide_eq_true_eq]
  exact setWidth_eq_zero_iff (target.cut_valueOf start cond)

/-- The second value replaces the first if the condition is zero. -/
theorem leads_replace (hb : target.Integral b) {width : Width} {rest : Cpu → List Reading} :
    Leads (Tested dividing (target.valueOf · a) (target.valueOf · cond))
      (sequence [.ok [.openNear .notEqual], target.fetch false b rax, .ok [.closeNear]])
      (Computed dividing fun start => integerResult width .select
        (target.reading start cond :: target.reading start a :: target.reading start b
          :: rest start)) := by
  obtain ⟨instr, hemit, hexec⟩ := Target.exists_fetch hplaced hb Gpr.rax
  apply Leads.skipped hemit
  · rintro start cpu ⟨⟨hscr, hvalue⟩, hzero⟩ hholds
    have hcond : ¬ target.valueOf start cond = 0 := by
      rw [Condition.holds, hzero, Bool.not_eq_true', decide_eq_false_iff_not] at hholds
      exact hholds
    refine ⟨hscr, ?_⟩
    dsimp only [integerResult, Target.reading]
    rw [if_neg hcond, Cpu.get, hvalue]
    rfl
  · rintro host start cpu ⟨⟨hscr, hvalue⟩, hzero⟩ hholds
    have hcond : target.valueOf start cond = 0 := by
      rw [Condition.holds, hzero, Bool.not_eq_false', decide_eq_true_eq] at hholds
      exact hholds
    refine ⟨_, hexec host cpu, hscr.set (by decide) _, ?_⟩
    dsimp only [integerResult, Target.reading]
    rw [if_pos hcond, get_setGpr_self, Target.valueOf_scratch hplaced hb hscr]
    rfl

end Selection

/-! ## Operations -/

section

variable (htype : type.isInteger = true)
include htype

theorem isFloat_of_isInteger : type.isFloat = false :=
  congrArg not htype

theorem isFloat_localVar {id : Nat} : (Operand.localVar id type).type.isFloat = false :=
  isFloat_of_isInteger htype

theorem not_isFloat : ¬type.isFloat = true :=
  Bool.eq_false_iff.mp (isFloat_of_isInteger htype)

end

theorem Target.Integral.isFloat_eq {target : Target} {opnd : Operand}
    (h : target.Integral opnd) : opnd.type.isFloat = false := by
  cases h with
  | constant bits htype => exact isFloat_of_isInteger htype
  | localVar htype hhome => exact isFloat_of_isInteger htype

theorem leads_integerCompare {target : Target} {a b : Operand} (hplaced : target.Placed)
    (ha : target.Integral a) (hb : target.Integral b) :
    Leads (Scratch dividing) (target.integerCompare a b)
      (Compared dividing (Width.ofType a.type) (target.valueOf · a) (target.valueOf · b)) := by
  apply (leads_accumulate hplaced ha).cons
  apply (leads_count hplaced hb _).cons
  exact leads_cmp.last

/-- Operations whose sources and results are integers, divisions apart. -/
def computesInteger : Instruction → Bool
  | .add | .sub | .mul | .and | .or | .xor | .not | .neg | .shl | .sar | .shr | .copy
  | .compare _ | .select | .zeroExtend32 | .signExtend32 => true
  | _ => false

/-- What an operation should compute, starting in a state. -/
def Target.outcome (target : Target) (width : Width) (op : Operation) (start : Cpu) :
    Option (BitVec width.bits) :=
  integerResult width op.instruction (op.sources.map (target.reading start))

/-- Code computes an operation whose result has a type and a home. -/
def Target.Implements (target : Target) (op : Operation) (type : ValueType) (home : Location)
    (emission : Emission) : Prop :=
  Leads (Scratch false) emission
    (target.Stored false (target.outcome (Width.ofType type) op) home)

section Operations

open HostRegister (rax rcx)

variable {target : Target} {op : Operation} {a b c : Operand}
  {rest : List Operand} {labels : List Nat} {id : Nat} {type : ValueType} {home : Location}
  (hplaced : target.Placed) (htype : type.isInteger = true) (hhome : target.HoldsInteger id home)
include hplaced htype hhome

/-- Two sources are loaded, and the result is stored. -/
theorem implements_two {emission : Emission} (ha : target.Integral a) (hb : target.Integral b)
    (hemit : Leads (Loaded false (target.valueOf · a) (target.valueOf · b)) emission
      (Computed false (target.outcome (Width.ofType type) op))) :
    target.Implements op type home (sequence [target.fetch false a rax, target.fetch false b rcx,
      emission, target.keep false (.localVar id type) rax]) := by
  apply (leads_accumulate hplaced ha).cons
  apply (leads_count hplaced hb _).cons
  apply hemit.cons
  exact (leads_store hplaced htype hhome _).last

omit hplaced hhome in
/-- Only floats would have other code. -/
theorem implements_integer {first second : Emission} (h : target.Implements op type home second) :
    target.Implements op type home (if type.isFloat then first else second) := by
  rwa [if_neg (not_isFloat htype)]

theorem implements_unary {emission : Emission} (ha : target.Integral a)
    (hemit : Leads (Accumulated false (target.valueOf · a)) emission
      (Computed false (target.outcome (Width.ofType type) op))) :
    target.Implements op type home (sequence [target.fetch false a rax, emission,
      target.keep false (.localVar id type) rax]) := by
  apply (leads_accumulate hplaced ha).cons
  apply hemit.cons
  exact (leads_store hplaced htype hhome _).last

theorem implements_copy (hop : op = ⟨.copy, some (.localVar id type), a :: rest, labels⟩)
    (ha : target.Integral a) : target.Implements op type home (target.copy op) := by
  subst hop
  dsimp only [Target.copy, destinationOf, sourceOf, getElem?_cons_zero, bind, Except.bind]
  rw [ha.isFloat_eq, isFloat_localVar htype]
  apply ((leads_accumulate hplaced ha).mono _).cons (leads_store hplaced htype hhome _).last
  -- the value in the accumulator is the result already
  rintro start cpu ⟨hscr, hvalue⟩
  refine ⟨hscr, ?_⟩
  rw [Cpu.get, hvalue]
  rfl

theorem implements_extend {signed : Bool}
    (hop : op = ⟨if signed then .signExtend32 else .zeroExtend32, some (.localVar id type),
      a :: rest, labels⟩)
    (ha : target.Integral a) : target.Implements op type home (target.extend op signed) := by
  subst hop
  dsimp only [Target.extend, destinationOf, sourceOf, getElem?_cons_zero, bind, Except.bind]
  rw [ha.isFloat_eq, isFloat_localVar htype]
  apply implements_unary hplaced htype hhome ha
  cases signed with
  | true => exact leads_signExtend
  | false => exact leads_zeroExtend

theorem implements_compare {cmp : Comparison}
    (hop : op = ⟨.compare cmp, some (.localVar id type), a :: b :: rest, labels⟩)
    (ha : target.Integral a) (hb : target.Integral b) :
    target.Implements op type home (target.compare op cmp) := by
  subst hop
  change target.Implements _ _ _ (if type.isFloat then _ else if a.type.isFloat then _ else sequence _)
  rw [if_neg (not_isFloat htype), ha.isFloat_eq]
  apply (leads_integerCompare hplaced ha hb).cons
  apply leads_setcc.cons
  apply leads_movzx8.cons
  exact (leads_store hplaced htype hhome _).last

theorem implements_select
    (hop : op = ⟨.select, some (.localVar id type), c :: a :: b :: rest, labels⟩)
    (hc : target.Integral c) (ha : target.Integral a) (hb : target.Integral b) :
    target.Implements op type home (target.select op) := by
  subst hop
  dsimp only [Target.select, destinationOf, sourceOf, getElem?_cons_zero, getElem?_cons_succ,
    bind, Except.bind]
  rw [hc.isFloat_eq, isFloat_localVar htype]
  apply (leads_load hplaced hc Gpr.rcx (by decide)).cons
  apply (leads_choose hplaced ha _).cons
  apply (leads_test _).cons
  apply (leads_replace hplaced hb).append
  exact (leads_store hplaced htype hhome _).last

end Operations

theorem exists_cons {target : Target} {sources : List Operand}
    (hsources : ∀ src ∈ sources, target.Integral src) (hcount : count + 1 ≤ sources.length) :
    ∃ src rest, sources = src :: rest ∧ target.Integral src ∧
      (∀ other ∈ rest, target.Integral other) ∧ count ≤ rest.length := by
  cases sources with
  | nil => cases hcount
  | cons src rest =>
    exact ⟨src, rest, rfl, hsources src mem_cons_self,
      fun other hother => hsources other (.tail _ hother),
      Nat.le_of_succ_le_succ hcount⟩

/-- Every operation on integers is implemented by its code. -/
theorem implements_operation {target : Target} (block : Block) {op : Operation} {id : Nat}
    {home : Location} (hplaced : target.Placed) (hkind : computesInteger op.instruction = true)
    (hshape : op.instruction.shape? = some (true, count)) (hcount : count ≤ op.sources.length)
    (hdest : op.destination = some (.localVar id type)) (htype : type.isInteger = true)
    (hhome : target.HoldsInteger id home)
    (hsources : ∀ src ∈ op.sources, target.Integral src) :
    target.Implements op type home (target.operation block op) := by
  obtain ⟨instr, dest, sources, labels⟩ := op
  dsimp only at hkind hshape hcount hdest hsources
  subst hdest
  cases instr with
  | div | divu | toFloat | toInteger | load | store | loadArgument | call | phi | ret | branch
  | branchIf => cases hkind
  | not | neg =>
    cases hshape
    obtain ⟨a, rest, rfl, ha, -, -⟩ := exists_cons hsources hcount
    exact implements_integer htype (implements_unary hplaced htype hhome ha (leads_unary (by simp)))
  | copy =>
    cases hshape
    obtain ⟨a, rest, rfl, ha, -, -⟩ := exists_cons hsources hcount
    exact implements_copy hplaced htype hhome rfl ha
  | zeroExtend32 =>
    cases hshape
    obtain ⟨a, rest, rfl, ha, -, -⟩ := exists_cons hsources hcount
    exact @implements_extend _ _ _ _ _ _ _ _ hplaced htype hhome false rfl ha
  | signExtend32 =>
    cases hshape
    obtain ⟨a, rest, rfl, ha, -, -⟩ := exists_cons hsources hcount
    exact @implements_extend _ _ _ _ _ _ _ _ hplaced htype hhome true rfl ha
  | select =>
    cases hshape
    obtain ⟨c, rest, rfl, hc, hrest, htwo⟩ := exists_cons hsources hcount
    obtain ⟨a, rest, rfl, ha, hrest, hone⟩ := exists_cons hrest htwo
    obtain ⟨b, rest, rfl, hb, -, -⟩ := exists_cons hrest hone
    exact implements_select hplaced htype hhome rfl hc ha hb
  | add | sub | mul | and | or | xor =>
    cases hshape
    obtain ⟨a, rest, rfl, ha, hrest, hone⟩ := exists_cons hsources hcount
    obtain ⟨b, rest, rfl, hb, -, -⟩ := exists_cons hrest hone
    apply implements_integer htype
    exact implements_two hplaced htype hhome ha hb (leads_integerOp (by simp))
  | shl | sar | shr =>
    cases hshape
    obtain ⟨a, rest, rfl, ha, hrest, hone⟩ := exists_cons hsources hcount
    obtain ⟨b, rest, rfl, hb, -, -⟩ := exists_cons hrest hone
    apply implements_integer htype
    exact implements_two hplaced htype hhome ha hb (leads_shift (by simp))
  | compare cmp =>
    cases hshape
    obtain ⟨a, rest, rfl, ha, hrest, hone⟩ := exists_cons hsources hcount
    obtain ⟨b, rest, rfl, hb, -, -⟩ := exists_cons hrest hone
    exact implements_compare hplaced htype hhome rfl ha hb

/-! ## Integer operations anywhere in a program -/

variable {target : Target} {id : Nat} {home : Location} {width : Width}

/-- An operation whose result goes to the home of a local changes nothing but the scratch
registers, the flags and the bytes of the result. -/
structure Target.Undisturbed (target : Target) (id : Nat) (home : Location) (width : Width)
    (start next : Cpu) : Prop where
  stack : next.gpr Gpr.rsp = start.gpr Gpr.rsp
  gpr : ∀ reg, reg ≠ Gpr.rax → reg ≠ Gpr.rcx → home ≠ .register (nameOf reg) →
    next.gpr reg = start.gpr reg
  xmm : next.xmm = start.xmm
  memory : ∀ addr, (∀ slot, home = .spill slot →
    width.bytes ≤ (addr - target.slotAddress start slot).toNat) →
      next.memory addr = start.memory addr
  others : ∀ other otherHome, id ≠ other → target.allocation.location? other = some otherHome →
    target.content next otherHome = target.content start otherHome

section Stored

variable {outcome : Cpu → Option (BitVec width.bits)} (hplaced : target.Placed)
  (hhome : target.HoldsInteger id home) (hstored : target.Stored dividing outcome home start next)
include hplaced hhome hstored

omit hplaced in
theorem gpr_of_stored (reg : Gpr) (hrax : reg ≠ Gpr.rax) (hrcx : reg ≠ Gpr.rcx)
    (hrdx : reg = Gpr.rdx → dividing = false) (hreg : home ≠ .register (nameOf reg)) :
    next.gpr reg = start.gpr reg := by
  obtain ⟨cpu, ⟨hscr, -⟩, rfl⟩ := hstored
  rw [← hscr.gpr reg hrax hrcx hrdx]
  cases home with
  | spill slot => rfl
  | register name =>
    apply gpr_set_of_ne
    rintro rfl
    exact hreg (congrArg _ (nameOf_gprOf (hhome.2 name rfl)).symm)

theorem others_of_stored {other : Nat} {otherHome : Location} (hne : id ≠ other)
    (hother : target.allocation.location? other = some otherHome) :
    target.content next otherHome = target.content start otherHome := by
  obtain ⟨cpu, ⟨hscr, -⟩, rfl⟩ := hstored
  rw [Target.content_assign_of_apart hplaced hhome hne hother]
  exact Target.content_scratch hplaced hother hscr

theorem outcome_of_stored :
    outcome start = some ((target.content next home).setWidth width.bits) := by
  obtain ⟨cpu, ⟨-, hout⟩, rfl⟩ := hstored
  rw [Target.content_assign_self hplaced hhome, hout]
  rfl

end Stored

theorem undisturbed_of_stored {outcome : Cpu → Option (BitVec width.bits)} (hplaced : target.Placed)
    (hhome : target.HoldsInteger id home) (hstored : target.Stored false outcome home start next) :
    target.Undisturbed id home width start next := by
  have hgpr (reg : Gpr) (hrax : reg ≠ Gpr.rax) (hrcx : reg ≠ Gpr.rcx) :=
    gpr_of_stored hhome hstored reg hrax hrcx fun _ => rfl
  constructor
  · apply hgpr Gpr.rsp (by decide) (by decide)
    rintro rfl
    have hrsvd := hplaced.notMem_reserved (hhome.2 _ rfl) hhome.1
    rw [gprOf_nameOf] at hrsvd
    exact hrsvd (by decide)
  · exact hgpr
  · obtain ⟨cpu, ⟨hscr, -⟩, rfl⟩ := hstored
    rw [← hscr.xmm]
    cases home <;> rfl
  · intro addr haddr
    obtain ⟨cpu, ⟨hscr, -⟩, rfl⟩ := hstored
    rw [← hscr.memory]
    cases home with
    | register name => rfl
    | spill slot =>
      have hfar := haddr slot rfl
      rw [Target.slotAddress, ← hscr.resolve] at hfar
      exact if_neg (Nat.not_lt.mpr hfar)
  · exact fun other otherHome hne hother => others_of_stored hplaced hhome hstored hne hother

/-- Items that can be run on their own run anywhere in a program. -/
theorem reaches_within {items before after : List Item} {host : Host} {avx : Bool}
    {code : List UInt8} (hexecute : host.execute false items start = some next)
    (hasm : assemble avx count (before ++ items ++ after) = .ok code) :
    host.Reaches code (.running (startOf avx (before ++ items ++ after) before.length) start)
      (.running (startOf avx (before ++ items ++ after) (before ++ items).length) next) := by
  have hdrop : (before ++ items ++ after).drop before.length = items ++ after := by
    rw [append_assoc, drop_left]
  rw [length_append]
  exact (reaches_of_execute (assembled_of_assemble hasm) hdrop).1 hexecute

/-- The code of an integer operation, wherever it stands in a program and whatever state it starts
in, leaves the result in the home of the destination, at the width of its type, and goes on behind
it. Nothing else changes but the scratch registers and the flags. -/
theorem operation_computes_integer {target : Target} (block : Block) {op : Operation}
    {id count : Nat} {type : ValueType} {home : Location} (hplaced : target.Placed)
    (hkind : computesInteger op.instruction = true)
    (hshape : op.instruction.shape? = some (true, count)) (hcount : count ≤ op.sources.length)
    (hdest : op.destination = some (.localVar id type)) (htype : type.isInteger = true)
    (hhome : target.HoldsInteger id home)
    (hsources : ∀ src ∈ op.sources, target.Integral src) :
    ∃ items, target.operation block op = .ok items ∧ ∀ (host : Host) (start : Cpu), ∃ next,
      host.execute false items start = some next ∧
      (∀ avx count before after code, assemble avx count (before ++ items ++ after) = .ok code →
        host.Reaches code
          (.running (startOf avx (before ++ items ++ after) before.length) start)
          (.running (startOf avx (before ++ items ++ after) (before ++ items).length) next)) ∧
      integerResult (Width.ofType type) op.instruction (op.sources.map (target.reading start))
        = some ((target.content next home).setWidth (Width.ofType type).bits) ∧
      target.Undisturbed id home (Width.ofType type) start next := by
  obtain ⟨items, hitems, hrun⟩ :=
    implements_operation block hplaced hkind hshape hcount hdest htype hhome hsources
  refine ⟨items, hitems, fun host start => ?_⟩
  obtain ⟨next, hexecute, hstored⟩ := hrun host start start (.refl start)
  exact ⟨next, hexecute, fun _ _ _ _ _ => reaches_within hexecute,
    outcome_of_stored hplaced hhome hstored, undisturbed_of_stored hplaced hhome hstored⟩

/-- A target with one local in a register and one in a spill slot. -/
def mixedHomes : Target where
  convention := .sysv
  fastFloat := false
  allocation :=
    { locations := #[some (.register .rbx), some (.spill 0)], intUsed := 8, vecUsed := 0,
      spillSize := 8 }
  frame := { spill := 8 }
  arguments := []

theorem placed_mixedHomes : mixedHomes.Placed := by
  have hhomes {id : Nat} {home : Location} (h : mixedHomes.allocation.location? id = some home) :
      (id = 0 ∧ home = .register .rbx) ∨ (id = 1 ∧ home = .spill 0) := by
    rcases id with - | - | id <;> cases h
    · exact .inl ⟨rfl, rfl⟩
    · exact .inr ⟨rfl, rfl⟩
  constructor
  · intro id other home otherHome hne hhome hother
    rcases hhomes hhome with ⟨rfl, rfl⟩ | ⟨rfl, rfl⟩ <;>
      rcases hhomes hother with ⟨rfl, rfl⟩ | ⟨rfl, rfl⟩
    · exact absurd rfl hne
    · trivial
    · trivial
    · exact absurd rfl hne
  · intro id name hhome
    rcases hhomes hhome with ⟨-, hname⟩ | ⟨-, hname⟩ <;> cases hname
    exact .inl (by decide)
  · intro id slot hhome
    rcases hhomes hhome with ⟨-, hslot⟩ | ⟨-, hslot⟩ <;> cases hslot
    exact Nat.le_refl 8
  · decide

/-- The spilled local keeps its value unless the one in the register is zero. -/
def selection : Operation where
  instruction := .select
  destination := some (.localVar 1 .i32)
  sources := [.localVar 0 .i64, .localVar 1 .i32, .constant 5 .i32]

theorem operation_computes_integer_selection :
    mixedHomes.Placed ∧ ∃ items, mixedHomes.operation { index := 0 } selection = .ok items ∧
      ∀ (host : Host) (start : Cpu), start.gpr (gprOf .rbx) = 0 → ∃ next,
        host.execute false items start = some next ∧
        (mixedHomes.content next (.spill 0)).setWidth 32 = 5#32 ∧
        mixedHomes.Undisturbed 1 (.spill 0) .w32 start next := by
  have hslot : mixedHomes.HoldsInteger 1 (.spill 0) := ⟨rfl, fun _ => Location.noConfusion⟩
  have hreg : mixedHomes.HoldsInteger 0 (.register .rbx) := by
    refine ⟨rfl, ?_⟩
    rintro - ⟨⟩
    rfl
  have hsources : ∀ src ∈ selection.sources, mixedHomes.Integral src := by
    intro src hsrc
    simp only [selection, List.mem_cons, List.not_mem_nil, or_false] at hsrc
    rcases hsrc with rfl | rfl | rfl
    · exact .localVar rfl hreg
    · exact .localVar rfl hslot
    · exact .constant 5 rfl
  obtain ⟨items, hitems, hrun⟩ := operation_computes_integer { index := 0 } placed_mixedHomes rfl
    (show selection.instruction.shape? = some (true, 3) from rfl) (Nat.le_refl 3) rfl rfl hslot hsources
  refine ⟨placed_mixedHomes, items, hitems, fun host start hzero => ?_⟩
  obtain ⟨next, hexecute, -, hresult, hundisturbed⟩ := hrun host start
  refine ⟨next, hexecute, ?_, hundisturbed⟩
  have hcond : mixedHomes.valueOf start (.localVar 0 .i64) = 0 := by
    change (((start.gpr (gprOf .rbx)).setWidth 128).setWidth 64) = 0
    rw [hzero]
    rfl
  change (some (if mixedHomes.valueOf start (.localVar 0 .i64) = 0 then _ else _)) = _ at hresult
  rw [if_pos hcond] at hresult
  exact (Option.some.inj hresult).symm

end Lowering

end GraphJit