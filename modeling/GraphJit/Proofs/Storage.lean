import GraphJit.Lowering.Access
import GraphJit.Proofs.HostMachine

/-! # Homes of locals as storage

A local is written and read through scratch registers, at 32 or 64 bits, and its
home is a register or a spill slot. This module says what every sequence of
accesses reads. A register holds the zero extension of what was written last; a
slot keeps the upper half of what it held when a word of 32 bits is written. The
main statement: a sequence of accesses reads the same in both homes, whatever is
written and whatever the homes held before, exactly if no read is wider than the
latest write before it.
-/

namespace GraphJit.Lowering

open X64 Code HostState
open Gpr (rsp)

/-- The name of a general purpose register. -/
def nameOf (reg : Gpr) : HostRegister := .gp reg.index

theorem word_nameOf (width : Width) (reg : Gpr) : Assembler.word width (nameOf reg) = .ok reg := by
  simp [Assembler.word, Assembler.general, Assembler.indexIn, nameOf, HostRegister.gp,
    HostRegister.gpBank]

theorem mov_nameOf (width : Width) (dst src : Gpr) :
    Assembler.mov width (nameOf dst) (nameOf src) = .ok (.mov width dst src) := by
  simp only [Assembler.mov, word_nameOf]
  rfl

theorem load_nameOf (width : Width) (dst base : Gpr) (disp : BitVec 32) :
    Assembler.load width (nameOf dst) (nameOf base) disp = .ok (.load width dst ⟨base, disp⟩) := by
  simp only [Assembler.load, word_nameOf]
  rfl

theorem store_nameOf (width : Width) (base src : Gpr) (disp : BitVec 32) :
    Assembler.store width (nameOf base) disp (nameOf src)
      = .ok (.store width ⟨base, disp⟩ src) := by
  simp only [Assembler.store, word_nameOf]
  rfl

/-- The integer type of a width. -/
def integerOf : Width → ValueType
  | .w32 => .i32
  | .w64 => .i64

theorem ofType_integerOf (width : Width) : Width.ofType (integerOf width) = width := by
  cases width <;> rfl

namespace Target

variable {target : Target} {id slot : Nat} {home : Gpr} {disp : BitVec 32}
  {inRegister : HostRegister → Emission} {inSlot : BitVec 32 → Emission}

/-! ## The code of one access -/

section Register

variable (hhome : target.allocation.location? id = some (.register (nameOf home)))
include hhome

theorem atHome_register (type : ValueType) :
    target.atHome (.localVar id type) inRegister inSlot = inRegister (nameOf home) := by
  rw [atHome, location, hhome]
  rfl

variable (width : Width) (via : Gpr)

theorem keep_register : target.keep false (.localVar id (integerOf width)) (nameOf via)
      = .ok [.instr (.mov width home via)] := by
  refine (atHome_register hhome _).trans ?_
  rw [Operand.type, ofType_integerOf]
  exact congrArg emit (mov_nameOf width home via)

theorem fetch_register : target.fetch false (.localVar id (integerOf width)) (nameOf via)
      = .ok [.instr (.mov width via home)] := by
  refine (atHome_register hhome _).trans ?_
  rw [Operand.type, ofType_integerOf]
  exact congrArg emit (mov_nameOf width via home)

end Register

section Slot

variable (hslot : target.allocation.location? id = some (.spill slot))
  (hoff : target.frame.spillOffset slot = .ok disp)
include hslot hoff

theorem atHome_slot (type : ValueType) :
    target.atHome (.localVar id type) inRegister inSlot = inSlot disp := by
  rw [atHome, location, hslot]
  change (target.frame.spillOffset slot : Outcome _) >>= inSlot = _
  rw [hoff]
  rfl

variable (width : Width) (via : Gpr)

theorem keep_slot : target.keep false (.localVar id (integerOf width)) (nameOf via)
      = .ok [.instr (.store width ⟨rsp, disp⟩ via)] := by
  refine (atHome_slot hslot hoff _).trans ?_
  rw [Operand.type, ofType_integerOf]
  exact congrArg emit (store_nameOf width rsp via disp)

theorem fetch_slot : target.fetch false (.localVar id (integerOf width)) (nameOf via)
      = .ok [.instr (.load width via ⟨rsp, disp⟩)] := by
  refine (atHome_slot hslot hoff _).trans ?_
  rw [Operand.type, ofType_integerOf]
  exact congrArg emit (load_nameOf width via rsp disp)

end Slot

end Target

/-! ## Sequences of accesses -/

/-- One access of a local at a width, through a scratch register. -/
inductive Access where
  | write (width : Width) (via : Gpr)
  | read (width : Width) (via : Gpr)
deriving DecidableEq, Repr

def Access.via : Access → Gpr
  | .write _ via => via
  | .read _ via => via

/-- What the reads of a local find in their scratch registers, if all the code runs. The
values are those that the writes store, at the positions of the writes in the sequence. -/
def Target.observe (target : Target) (id : Nat) :
    List Access → (Nat → BitVec 64) → HostState → Option (List (BitVec 64))
  | [], _, _ => some []
  | .write width via :: rest, vals, state => do
      let items ← (target.keep false (.localVar id (integerOf width)) (nameOf via)).toOption
      let next ← (state.set via (vals 0)).run items
      target.observe id rest (fun k => vals (k + 1)) next
  | .read width via :: rest, vals, state => do
      let items ← (target.fetch false (.localVar id (integerOf width)) (nameOf via)).toOption
      let next ← state.run items
      let found ← target.observe id rest (fun k => vals (k + 1)) next
      return next.gpr via :: found

/-- What a sequence of accesses reads from storage that holds a word. Storage is given by
what a write at a width makes of its content. -/
def reads (store : Width → BitVec 64 → BitVec 64 → BitVec 64) :
    List Access → (Nat → BitVec 64) → BitVec 64 → List (BitVec 64)
  | [], _, _ => []
  | .write width _ :: rest, vals, content =>
    reads store rest (fun k => vals (k + 1)) (store width content (vals 0))
  | .read width _ :: rest, vals, content =>
    width.cut content :: reads store rest (fun k => vals (k + 1)) content

/-- A register keeps nothing of its content. -/
def renew (width : Width) (_old value : BitVec 64) : BitVec 64 := width.cut value

variable {target : Target} {id slot : Nat} {home : Gpr} {disp : BitVec 32}
  {accesses : List Access}

theorem observe_register (hhome : target.allocation.location? id = some (.register (nameOf home)))
    (hvia : ∀ access ∈ accesses, access.via ≠ home) (vals : Nat → BitVec 64) (state : HostState) :
    target.observe id accesses vals state = some (reads renew accesses vals (state.gpr home)) := by
  induction accesses generalizing vals state with
  | nil => rfl
  | cons access rest ih =>
    rw [List.forall_mem_cons] at hvia
    cases access with
    | write width via =>
      rw [Target.observe, Target.keep_register hhome]
      change target.observe id rest _ (((state.set via (vals 0)).set home _)) = _
      rw [ih hvia.2, gpr_set_self, gpr_set_self]
      rfl
    | read width via =>
      have hkept : home ≠ via := hvia.1.symm
      rw [Target.observe, Target.fetch_register hhome]
      change (do
        let found ← target.observe id rest _ (state.set via (width.cut (state.gpr home)))
        return (state.set via (width.cut (state.gpr home))).gpr via :: found) = _
      rw [ih hvia.2, gpr_set_self, gpr_set_of_ne hkept]
      rfl

/-- The word of eight bytes in a spill slot. -/
def slotContent (disp : BitVec 32) (state : HostState) : BitVec 64 :=
  state.memory.read (state.resolve ⟨rsp, disp⟩) 8

theorem slotContent_set {via : Gpr} (hvia : via ≠ rsp) (state : HostState) (value : BitVec 64) :
    slotContent disp (state.set via value) = slotContent disp state := by
  simp only [slotContent, HostState.resolve, gpr_set_of_ne hvia.symm, memory_set]

theorem observe_slot (hslot : target.allocation.location? id = some (.spill slot))
    (hoff : target.frame.spillOffset slot = .ok disp)
    (hvia : ∀ access ∈ accesses, access.via ≠ rsp) (vals : Nat → BitVec 64)
    (state : HostState) : target.observe id accesses vals state
      = some (reads Width.overwrite accesses vals (slotContent disp state)) := by
  induction accesses generalizing vals state with
  | nil => rfl
  | cons access rest ih =>
    rw [List.forall_mem_cons] at hvia
    cases access with
    | write width via =>
      rw [Target.observe, Target.keep_slot hslot hoff]
      -- the scratch register takes the value, then the store replaces the bytes of its width
      let written := state.set via (vals 0)
      let next : HostState := { written with
        memory := written.memory.write (written.resolve ⟨rsp, disp⟩) width.bytes (written.gpr via) }
      have hcontent : slotContent disp next
          = width.overwrite (slotContent disp state) (vals 0) := by
        calc slotContent disp next
            = width.overwrite (slotContent disp written) (written.gpr via) :=
              Memory.read_write _ _ _ _
          _ = width.overwrite (slotContent disp state) (vals 0) := by
              rw [gpr_set_self]
              exact congrArg (width.overwrite · _) (slotContent_set hvia.1 state _)
      change target.observe id rest _ next = _
      rw [ih hvia.2, hcontent]
      rfl
    | read width via =>
      rw [Target.observe, Target.fetch_slot hslot hoff]
      let next := state.set via
        (state.memory.read (state.resolve ⟨rsp, disp⟩) width.bytes)
      have hcontent : slotContent disp next = slotContent disp state :=
        slotContent_set hvia.1 state _
      have hread : next.gpr via = width.cut (slotContent disp state) := by
        rw [gpr_set_self, Memory.read_bytes]
        rfl
      change (do
        let found ← target.observe id rest _ next
        return next.gpr via :: found) = _
      rw [ih hvia.2, hcontent, hread]
      rfl

/-! ## Where the two homes agree -/

/-- Whether a word of one width holds one of the other. -/
def narrower : Width → Width → Bool
  | .w64, .w32 => false
  | _, _ => true

/-- Whether every read is no wider than the latest write before it, which at the start is
the given one. -/
def covered : Option Width → List Access → Bool
  | _, [] => true
  | _, .write width _ :: rest => covered (some width) rest
  | none, .read _ _ :: _ => false
  | some latest, .read width _ :: rest => narrower width latest && covered (some latest) rest

/-- What the reads find if the latest write decides alone. -/
def latestWrites : List Access → (Nat → BitVec 64) → BitVec 64 → List (BitVec 64)
  | [], _, _ => []
  | .write _ _ :: rest, vals, _ =>
    latestWrites rest (fun k => vals (k + 1)) (vals 0)
  | .read width _ :: rest, vals, latest =>
    width.cut latest :: latestWrites rest (fun k => vals (k + 1)) latest

variable {width latest : Width} {last : Option Width}

section

variable (h : narrower width latest = true)
include h

theorem bytes_le_of_narrower : width.bytes ≤ latest.bytes := by
  revert h
  cases width <;> cases latest <;> decide

theorem cut_cut (value : BitVec 64) : width.cut (latest.cut value) = width.cut value := by
  apply BitVec.eq_of_getLsbD_eq
  intro j hj
  rw [Width.getLsbD_cut, Width.getLsbD_cut, Width.getLsbD_cut]
  have hbytes := bytes_le_of_narrower h
  by_cases hin : j < 8 * width.bytes
  · simp [hin, show j < 8 * latest.bytes by omega]
  · simp [hin]

theorem cut_overwrite (old value : BitVec 64) :
    width.cut (latest.overwrite old value) = width.cut value := by
  apply BitVec.eq_of_getLsbD_eq
  intro j hj
  rw [Width.getLsbD_cut, Width.getLsbD_cut, Width.getLsbD_overwrite]
  have hbytes := bytes_le_of_narrower h
  by_cases hin : j < 8 * width.bytes
  · simp [hin, show j < 8 * latest.bytes by omega]
  · simp [hin]

end

/-- Storage whose content shows the latest write to narrower reads is read as if only that
write had been made. -/
theorem reads_eq_latestWrites {store : Width → BitVec 64 → BitVec 64 → BitVec 64}
    (hstore : ∀ {width latest : Width}, narrower width latest = true → ∀ old value,
      width.cut (store latest old value) = width.cut value) (vals : Nat → BitVec 64)
    (content latest : BitVec 64) (last : Option Width)
    (hlast : ∀ wide, last = some wide → ∀ width, narrower width wide = true →
      width.cut content = width.cut latest) (hcovered : covered last accesses = true) :
    reads store accesses vals content = latestWrites accesses vals latest := by
  induction accesses generalizing vals content latest last with
  | nil => rfl
  | cons access rest ih =>
    cases access with
    | write width via =>
      refine ih _ _ _ (some width) ?_ hcovered
      intro wide hwide narrow hnarrow
      cases hwide
      exact hstore hnarrow content (vals 0)
    | read width via =>
      cases last with
      | none => exact absurd hcovered Bool.false_ne_true
      | some wide =>
        rw [covered, Bool.and_eq_true] at hcovered
        rw [reads, latestWrites, hlast wide rfl width hcovered.1]
        congr 1
        exact ih _ _ _ (some wide) hlast hcovered.2

/-- A word of ones. -/
abbrev ones : BitVec 64 := BitVec.allOnes 64

theorem overwrite_ones (width : Width) : width.overwrite ones ones = ones := by
  cases width <;> decide

/-- Where only words of ones are written, the content of the slot never changes. -/
theorem reads_overwrite_ones (width : Width) (via : Gpr) (rest : List Access) :
    reads Width.overwrite (.write width via :: rest) (fun _ => ones) ones
      = reads Width.overwrite rest (fun _ => ones) ones := by
  rw [reads, overwrite_ones]

theorem slotContent_ones (gpr : Gpr → BitVec 64) :
    slotContent disp ⟨gpr, fun _ => BitVec.allOnes 8⟩ = ones := by
  apply BitVec.eq_of_getLsbD_eq
  intro j hj
  rw [slotContent, Memory.getLsbD_read _ _ _ _ hj, BitVec.getLsbD_allOnes, BitVec.getLsbD_allOnes]
  simp [hj, show j % 8 < 8 by omega]

/-- What a register holds after a write of ones, or if nothing has been written. -/
def onesOf : Option Width → BitVec 64
  | none => 0
  | some width => width.cut ones

theorem narrower_of_cut_onesOf (h : width.cut (onesOf last) = width.cut ones) :
    ∃ wide, last = some wide ∧ narrower width wide = true := by
  rcases last with - | wide
  · exact absurd h (by cases width <;> decide)
  · refine ⟨wide, rfl, ?_⟩
    revert h
    cases width <;> cases wide <;> decide

/-- Words of ones, written over a slot of ones, tell a slot from a register. -/
theorem covered_of_reads_ones (h : reads renew accesses (fun _ => ones) (onesOf last)
      = reads Width.overwrite accesses (fun _ => ones) ones) : covered last accesses = true := by
  induction accesses generalizing last with
  | nil => cases last <;> rfl
  | cons access rest ih =>
    cases access with
    | write width via =>
      rw [reads_overwrite_ones] at h
      have hrest : covered (some width) rest = true := ih h
      cases last <;> exact hrest
    | read width via =>
      rw [reads, reads, List.cons.injEq] at h
      obtain ⟨wide, rfl, hnarrow⟩ := narrower_of_cut_onesOf h.1
      rw [covered, hnarrow, ih h.2]
      rfl

/-- A local is read alike in a register and in a spill slot, whatever is written to it and
whatever the two held before, exactly if no read is wider than the latest write before it;
and then each read finds what was written last. -/
theorem homes_agree_iff_covered {inRegister inSlot : Target}
    (hhome : inRegister.allocation.location? id = some (.register (nameOf home)))
    (hslot : inSlot.allocation.location? id = some (.spill slot))
    (hoff : inSlot.frame.spillOffset slot = .ok disp)
    (hvia : ∀ access ∈ accesses, access.via ≠ home ∧ access.via ≠ rsp) :
    ((∀ values first second, inRegister.observe id accesses values first
        = inSlot.observe id accesses values second) ↔ covered none accesses = true)
      ∧ (covered none accesses = true → ∀ values state,
          inRegister.observe id accesses values state = some (latestWrites accesses values 0)
            ∧ inSlot.observe id accesses values state
              = some (latestWrites accesses values 0)) := by
  have hreg := observe_register hhome fun access hmem => (hvia access hmem).1
  have hspilled := observe_slot hslot hoff fun access hmem => (hvia access hmem).2
  have hlatest (hcovered : covered none accesses = true) (values : Nat → BitVec 64)
      (state : HostState) :
      inRegister.observe id accesses values state = some (latestWrites accesses values 0)
        ∧ inSlot.observe id accesses values state
          = some (latestWrites accesses values 0) := by
    rw [hreg, hspilled]
    constructor
    · have hrenew {width latest : Width} (h : narrower width latest = true)
          (old value : BitVec 64) : width.cut (renew latest old value) = width.cut value :=
        cut_cut h value
      rw [reads_eq_latestWrites hrenew _ _ 0 none (by simp) hcovered]
    · rw [reads_eq_latestWrites cut_overwrite _ _ 0 none (by simp) hcovered]
  refine ⟨⟨?_, ?_⟩, hlatest⟩
  · intro hagree
    -- A register of zeros and a slot of ones, and only words of ones are written.
    have hones := hagree (fun _ => ones) ⟨fun _ => 0, fun _ => 0⟩
      ⟨fun _ => 0, fun _ => BitVec.allOnes 8⟩
    rw [hreg, hspilled, slotContent_ones] at hones
    apply covered_of_reads_ones
    exact Option.some.inj hones
  · intro hcovered values first second
    rw [(hlatest hcovered values first).1, (hlatest hcovered values second).2]

/-- A target in which the first local has the given home. -/
def holding (location : Location) : Target where
  convention := .sysv
  fastFloat := false
  allocation :=
    { locations := #[some location], intUsed := 0, vecUsed := 0, spillSize := 8 }
  frame := { spill := 8 }
  arguments := []

/-- A home that no scratch value goes through. -/
def savedHome : Gpr := ⟨⟨3, by decide⟩⟩

theorem homes_agree_iff_covered_sample : let accesses : List Access :=
      [.write .w64 Gpr.rax, .write .w32 Gpr.rax, .read .w32 Gpr.rax, .write .w64 Gpr.rax,
        .read .w32 Gpr.rax, .read .w64 Gpr.rax]
    covered none accesses = true
      ∧ ∀ values first second,
        (holding (.register (nameOf savedHome))).observe 0 accesses values first
          = (holding (.spill 0)).observe 0 accesses values second := by
  intro accesses
  have hvia : ∀ access ∈ accesses, access.via ≠ savedHome ∧ access.via ≠ rsp := by decide
  have hhome : (holding (.register (nameOf savedHome))).allocation.location? 0
      = some (.register (nameOf savedHome)) := rfl
  have hslot : (holding (.spill 0)).allocation.location? 0 = some (.spill 0) := rfl
  have hcovered : covered none accesses = true := by decide
  exact ⟨hcovered, (homes_agree_iff_covered hhome hslot rfl hvia).1.mpr hcovered⟩

/-- A word of 32 bits written over a word of 64 bits clears the upper half of a register and
keeps that of a slot, and a read of 64 bits sees the difference. -/
theorem homes_differ : let accesses : List Access :=
      [.write .w64 Gpr.rax, .write .w32 Gpr.rax, .read .w64 Gpr.rax]
    let values : Nat → BitVec 64 := fun k => if k = 0 then ones else 5
    let state : HostState := ⟨fun _ => 0, fun _ => 0⟩
    (holding (.register (nameOf savedHome))).observe 0 accesses values state = some [5]
      ∧ (holding (.spill 0)).observe 0 accesses values state
        = some [0xffffffff00000005#64] := by
  decide +kernel

end GraphJit.Lowering
