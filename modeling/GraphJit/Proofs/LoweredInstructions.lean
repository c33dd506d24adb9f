import GraphJit.Proofs.LoweredOperations

/-! # The instructions of lowered operations

Every operation but those that end a block is lowered to straight code: instructions
that go on with the next one, and near jumps over a few of them. This module says
how many instructions there are and what they may write: scratch registers, argument
registers, homes of locals, and memory through a pointer, in a spill slot or in a place
of an outgoing argument. Two targets that accept the same accesses get matching code.
-/

namespace GraphJit

open X64 Code Lowering List Assembler Target

namespace X64

/-! ## Assembled instructions -/

/-- An instruction that sets a register, if anything. -/
structure Instr.Sets (name : HostRegister) (instr : Instr) : Prop where
  written : ∀ other ∈ instr.written, other = name
  stored : instr.stored? = none
  total : instr.isTotal = true

theorem nameOf_inj {first second : Gpr} (h : nameOf first = nameOf second) : first = second := by
  cases first
  cases second
  exact congrArg Gpr.mk (Fin.ext (congrArg HostRegister.id h))

variable {instr : Instr} {name : HostRegister}

theorem Instr.isControl_of_isTotal (htotal : instr.isTotal = true) : instr.isControl = false := by
  cases instr with
  | ret | jmp | jcc => cases htotal
  | _ => rfl

namespace Assembler

variable {name : HostRegister} {instr : Instr}

variable {α β : Type} {first : Result α}

theorem of_one {build : α → β} {b : β} (h : (do return build (← first)) = Except.ok b) :
    ∃ a, first = .ok a ∧ b = build a := by
  cases first with
  | error cause => cases h
  | ok a => cases h; exact ⟨a, rfl, rfl⟩

theorem of_indexIn {bank : Nat} {other expected : RegisterClass} {index : Fin 16}
    (h : indexIn bank other expected name = .ok index) : ⟨bank, index⟩ = name := by
  rw [indexIn] at h
  split at h
  next hbank =>
    split at h
    next hbound =>
      cases h
      rw [← hbank]
    next => cases h
  next => cases h

theorem of_general {expected : RegisterClass} {reg : Gpr}
    (h : general expected name = .ok reg) : nameOf reg = name := by
  obtain ⟨index, hindex, rfl⟩ := of_one h
  exact of_indexIn hindex

theorem of_vector {reg : Xmm} (h : vector name = .ok reg) : vectorNameOf reg = name := by
  obtain ⟨index, hindex, rfl⟩ := of_one h
  exact of_indexIn hindex

theorem of_two {second : Result β} {build : α → β → Instr}
    (h : (do let a ← first; return build a (← second)) = Except.ok instr) :
    ∃ a b, first = .ok a ∧ second = .ok b ∧ instr = build a b := by
  cases first with
  | error cause => cases h
  | ok a =>
    cases second with
    | error cause => cases h
    | ok b => cases h; exact ⟨a, b, rfl, rfl, rfl⟩

end Assembler

theorem Instr.Sets.only (hwritten : instr.written = [name]) (hstored : instr.stored? = none)
    (htotal : instr.isTotal = true) : instr.Sets name := by
  refine ⟨?_, hstored, htotal⟩
  rw [hwritten]
  exact fun other => mem_singleton.mp

theorem Instr.Sets.nothing (hwritten : instr.written = []) (hstored : instr.stored? = none)
    (htotal : instr.isTotal = true) : instr.Sets name := by
  refine ⟨?_, hstored, htotal⟩
  rw [hwritten]
  exact fun other hother => absurd hother not_mem_nil

namespace Assembler

/-! What the instructions that write no memory set, by the operand that names it. -/

section Sets

variable {β : Type} {instr : Instr} {dst src base : HostRegister} {width : Width} {disp : BitVec 32}

variable {expected : RegisterClass}

theorem sets_word {build : Gpr → Instr}
    (h : (do return build (← general expected dst)) = Except.ok instr)
    (hbuild : ∀ reg, (build reg).Sets (nameOf reg)) : instr.Sets dst := by
  obtain ⟨reg, hreg, rfl⟩ := of_one h
  rw [← of_general hreg]
  exact hbuild reg

theorem sets_wordFirst {second : Result β} {build : Gpr → β → Instr}
    (h : (do let a ← general expected dst; return build a (← second)) = Except.ok instr)
    (hbuild : ∀ reg b, (build reg b).Sets (nameOf reg)) : instr.Sets dst := by
  obtain ⟨reg, b, hreg, -, rfl⟩ := of_two h
  rw [← of_general hreg]
  exact hbuild reg b

theorem sets_wordSecond {first : Result β} {build : β → Gpr → Instr}
    (h : (do let a ← first; return build a (← general expected dst)) = Except.ok instr)
    (hbuild : ∀ a reg, (build a reg).Sets (nameOf reg)) : instr.Sets dst := by
  obtain ⟨a, reg, -, hreg, rfl⟩ := of_two h
  rw [← of_general hreg]
  exact hbuild a reg

theorem sets_vectorFirst {second : Result β} {build : Xmm → β → Instr}
    (h : (do let a ← vector dst; return build a (← second)) = Except.ok instr)
    (hbuild : ∀ reg b, (build reg b).Sets (vectorNameOf reg)) : instr.Sets dst := by
  obtain ⟨reg, b, hreg, -, rfl⟩ := of_two h
  rw [← of_vector hreg]
  exact hbuild reg b

theorem sets_movImm {value : BitVec 64} (h : movImm width dst value = .ok instr) :
    instr.Sets dst := by
  cases width with
  | w32 | w64 => exact sets_word h fun _ => .only rfl rfl rfl

theorem sets_alu {op : AluOp} (h : alu op width dst src = .ok instr) : instr.Sets dst := by
  apply sets_wordFirst h
  cases op with
  | cmp | test => exact fun _ _ => .nothing rfl rfl rfl
  | _ => exact fun _ _ => .only rfl rfl rfl

theorem sets_setcc {cond : Condition} (h : setcc cond dst = .ok instr) : instr.Sets dst :=
  sets_word h fun _ => .only rfl rfl rfl

theorem sets_alu8 {op : ByteOp} (h : alu8 op dst src = .ok instr) : instr.Sets dst :=
  sets_wordFirst h fun _ _ => .only rfl rfl rfl

theorem sets_movzx8 (h : movzx8 dst src = .ok instr) : instr.Sets dst :=
  sets_wordFirst h fun _ _ => .only rfl rfl rfl

theorem sets_moveAs {isFloat : Bool} (h : moveAs isFloat width dst src = .ok instr) :
    instr.Sets dst := by
  cases isFloat with
  | false => exact sets_wordFirst h fun _ _ => .only rfl rfl rfl
  | true => exact sets_vectorFirst h fun _ _ => .only rfl rfl rfl

theorem sets_loadAs {isFloat : Bool} (h : loadAs isFloat width dst base disp = .ok instr) :
    instr.Sets dst := by
  cases isFloat with
  | false => exact sets_wordSecond h fun _ _ => .only rfl rfl rfl
  | true => exact sets_vectorFirst h fun _ _ => .only rfl rfl rfl

theorem sets_fpCompare (h : fpCompare width dst src = .ok instr) : instr.Sets dst :=
  sets_vectorFirst h fun _ _ => .nothing rfl rfl rfl

theorem sets_movToXmm (h : movToXmm width dst src = .ok instr) : instr.Sets dst :=
  sets_vectorFirst h fun _ _ => .only rfl rfl rfl

end Sets

section Stores

variable {instr : Instr} {src base : HostRegister} {width : Width} {disp : BitVec 32}

theorem stores_storeAs {isFloat : Bool} (h : storeAs isFloat width base disp src = .ok instr) :
    Stores base disp instr := by
  cases isFloat with
  | false =>
    obtain ⟨b, s, hb, -, rfl⟩ := of_two h
    exact ⟨rfl, ⟨_, _, rfl, of_general hb, rfl, bytes_le width⟩, rfl⟩
  | true =>
    obtain ⟨s, b, -, hb, rfl⟩ := of_two h
    exact ⟨rfl, ⟨_, _, rfl, of_general hb, rfl, bytes_le width⟩, rfl⟩

end Stores

end Assembler

end X64

namespace Lowering

/-! ## Straight code -/

/-- Allowed instructions, and near jumps over some of them. -/
inductive Straight (allowed : Instr → Prop) : List Item → Prop
  | nil : Straight allowed []
  | instr {instr : Instr} {items : List Item} (hallow : allowed instr)
      (hrest : Straight allowed items) : Straight allowed (.instr instr :: items)
  | skip (cond : Condition) {skipped : List Instr} {items : List Item}
      (hallow : ∀ instr ∈ skipped, allowed instr) (hrest : Straight allowed items) :
      Straight allowed (.openNear cond :: (skipped.map .instr ++ .closeNear :: items))

namespace Straight

variable {allowed : Instr → Prop} {items others : List Item}

theorem append (h : Straight allowed items) (h' : Straight allowed others) :
    Straight allowed (items ++ others) := by
  induction h with
  | nil => exact h'
  | instr hallow _ ih => exact .instr hallow ih
  | skip cond hallow _ ih =>
    rw [cons_append, append_assoc, cons_append]
    exact .skip cond hallow ih

theorem mono {weaker : Instr → Prop} (h : Straight allowed items)
    (hweaker : ∀ instr, allowed instr → weaker instr) : Straight weaker items := by
  induction h with
  | nil => exact .nil
  | instr hallow _ ih => exact .instr (hweaker _ hallow) ih
  | skip cond hallow _ ih =>
    exact .skip cond (fun instr hinstr => hweaker instr (hallow instr hinstr)) ih

theorem of_instrs {instrs : List Instr} (h : ∀ instr ∈ instrs, allowed instr) :
    Straight allowed (instrs.map .instr) := by
  induction instrs with
  | nil => exact .nil
  | cons instr rest ih =>
    rw [forall_mem_cons] at h
    exact .instr h.1 (ih h.2)

end Straight

/-- An accepted emission is made of allowed instructions, and of at most so many. -/
def EmitsInstrs (n : Nat) (allowed : Instr → Prop) (emission : Emission) : Prop :=
  ∀ items, emission = .ok items → ∃ instrs : List Instr, items = instrs.map .instr ∧
    (∀ instr ∈ instrs, allowed instr) ∧ instrs.length ≤ n

/-- An accepted emission is straight code of allowed instructions. -/
def EmitsStraight (allowed : Instr → Prop) (emission : Emission) : Prop :=
  ∀ items, emission = .ok items → Straight allowed items

variable {allowed : Instr → Prop} {emission : Emission} {parts : List Emission} {m n : Nat}

namespace EmitsInstrs

theorem emit {machine : Result Instr} (h : ∀ instr, machine = .ok instr → allowed instr) :
    EmitsInstrs 1 allowed (emit machine) := by
  intro items hitems
  cases machine with
  | error cause => cases hitems
  | ok instr =>
    cases hitems
    exact ⟨[instr], rfl, forall_mem_singleton.mpr (h instr rfl), Nat.le_refl 1⟩

theorem nil : EmitsInstrs n allowed (.ok []) := by
  intro items hitems
  cases hitems
  exact ⟨[], rfl, forall_mem_nil _, Nat.zero_le n⟩

theorem bind {α : Type} {first : Outcome α} {next : α → Emission}
    (h : ∀ a, first = .ok a → EmitsInstrs n allowed (next a)) :
    EmitsInstrs n allowed (first >>= next) := by
  intro items hitems
  obtain ⟨a, hfirst, hnext⟩ := of_bind hitems
  exact h a hfirst items hnext

theorem ite {cond : Prop} [Decidable cond] {other : Emission}
    (h : cond → EmitsInstrs n allowed emission) (h' : ¬cond → EmitsInstrs n allowed other) :
    EmitsInstrs n allowed (if cond then emission else other) := by
  split
  next hholds => exact h hholds
  next hholds => exact h' hholds

theorem mono (h : EmitsInstrs m allowed emission) (hle : m ≤ n) :
    EmitsInstrs n allowed emission := by
  intro items hitems
  obtain ⟨instrs, hinstrs, hallow, hlength⟩ := h items hitems
  exact ⟨instrs, hinstrs, hallow, hlength.trans hle⟩

theorem cons (hfirst : EmitsInstrs m allowed emission)
    (hrest : EmitsInstrs n allowed (sequence parts)) :
    EmitsInstrs (n + m) allowed (sequence (emission :: parts)) := by
  intro items hitems
  obtain ⟨first, rest, hok, hokRest, rfl⟩ := of_sequence_cons hitems
  obtain ⟨instrs, rfl, hinstrs, hlength⟩ := hfirst first hok
  obtain ⟨others, rfl, hothers, hlength'⟩ := hrest rest hokRest
  refine ⟨instrs ++ others, map_append.symm, forall_mem_append.mpr ⟨hinstrs, hothers⟩, ?_⟩
  rw [length_append]
  omega

theorem last (h : EmitsInstrs n allowed emission) : EmitsInstrs n allowed (sequence [emission]) :=
  Nat.zero_add n ▸ h.cons nil

end EmitsInstrs

namespace EmitsStraight

theorem of_instrs (h : EmitsInstrs n allowed emission) : EmitsStraight allowed emission := by
  intro items hitems
  obtain ⟨instrs, rfl, hinstrs, -⟩ := h items hitems
  exact .of_instrs hinstrs

theorem cons (hfirst : EmitsStraight allowed emission)
    (hrest : EmitsStraight allowed (sequence parts)) :
    EmitsStraight allowed (sequence (emission :: parts)) := by
  intro items hitems
  obtain ⟨first, rest, hok, hokRest, rfl⟩ := of_sequence_cons hitems
  exact (hfirst first hok).append (hrest rest hokRest)

/-- A near jump over instructions. -/
theorem skip (cond : Condition) {skipped : List Emission}
    (hskip : EmitsInstrs n allowed (sequence skipped))
    (hrest : EmitsStraight allowed (sequence parts)) : EmitsStraight allowed
      (sequence (.ok [.openNear cond] :: (skipped ++ .ok [.closeNear] :: parts))) := by
  intro items hitems
  obtain ⟨_, inner, ⟨⟩, hinner, rfl⟩ := of_sequence_cons hitems
  rw [sequence_append] at hinner
  obtain ⟨first, last, hfirst, hlast, rfl⟩ := of_both hinner
  obtain ⟨_, rest, ⟨⟩, hrestItems, rfl⟩ := of_sequence_cons hlast
  obtain ⟨instrs, rfl, hinstrs, -⟩ := hskip first hfirst
  exact .skip cond hinstrs (hrest rest hrestItems)

end EmitsStraight

/-! ## What operations may write -/

/-- Whatever only sets a scratch register is allowed. -/
def AllowsScratch (allowed : Instr → Prop) : Prop :=
  ∀ name ∈ scratchNames, ∀ instr, Instr.Sets name instr → allowed instr

theorem AllowsScratch.emit (hscr : AllowsScratch allowed) {machine : Result Instr}
    {name : HostRegister} (hname : name ∈ scratchNames)
    (hsets : ∀ instr, machine = .ok instr → instr.Sets name) :
    EmitsInstrs 1 allowed (emit machine) :=
  .emit fun instr h => hscr name hname instr (hsets instr h)

namespace Target

/-- Places that the code of an operation may store to. -/
inductive Storable (target : Target) (op : Operation) (place : Address) : Prop
  | pointer (hbase : place.base = Gpr.rcx)
  | slot {id slot : Nat} (hbase : place.base = Gpr.rsp)
      (hhome : target.allocation.location? id = some (.spill slot))
      (hoff : target.frame.spillOffset slot = .ok place.displacement)
  | argument {off : Nat} (hbase : place.base = Gpr.rsp) (hop : op.instruction = .call)
      (hplace : Place.stack off ∈ target.convention.places ((op.sources.drop 1).map Operand.type))
      (hdisp : place.displacement = BitVec.ofNat 32 off)

/-- Instructions that the code of an operation may have, if it does not end its block. -/
structure Permits (target : Target) (op : Operation) (instr : Instr) : Prop where
  goesOn : instr.isControl = false
  written : ∀ name ∈ instr.written, target.Writable name
  stored : ∀ place bytes, instr.stored? = some (place, bytes) → target.Storable op place ∧ bytes ≤ 8

variable {target : Target} {op : Operation} {instr : Instr}

theorem permits_of_sets {name : HostRegister} (hname : target.Writable name)
    (hsets : instr.Sets name) : target.Permits op instr where
  goesOn := Instr.isControl_of_isTotal hsets.total
  written other hother := by
    rw [hsets.written other hother]
    exact hname
  stored place bytes hstored := by
    rw [hsets.stored] at hstored
    cases hstored

theorem allowsScratch_permits (target : Target) (op : Operation) :
    AllowsScratch (target.Permits op) :=
  fun _ hname _ => permits_of_sets (.scratch hname)

theorem permits_of_stores {base : Gpr} {disp : BitVec 32} (hplace : target.Storable op ⟨base, disp⟩)
    (hstores : Stores (nameOf base) disp instr) : target.Permits op instr where
  goesOn := Instr.isControl_of_isTotal hstores.total
  written other hother := by
    rw [hstores.written] at hother
    cases hother
  stored place bytes hstored := by
    obtain ⟨found, count, hfound, hbase, rfl, hcount⟩ := hstores.stored
    rw [hfound] at hstored
    cases hstored
    refine ⟨?_, hcount⟩
    rwa [← nameOf_inj hbase] at hplace

end Target

namespace Target

variable {target : Target} {op : Operation} {opnd dest a b : Operand} {name : HostRegister}

theorem instrs_atHome {inRegister : HostRegister → Emission} {inSlot : BitVec 32 → Emission}
    (hreg : ∀ id reg, target.allocation.location? id = some (.register reg) →
      EmitsInstrs n allowed (inRegister reg))
    (hslot : ∀ id slot disp, target.allocation.location? id = some (.spill slot) →
      target.frame.spillOffset slot = .ok disp → EmitsInstrs n allowed (inSlot disp)) :
    EmitsInstrs n allowed (target.atHome opnd inRegister inSlot) := by
  apply EmitsInstrs.bind
  intro home hhome
  obtain ⟨id, -, hid⟩ := of_location hhome
  cases home with
  | register reg => exact hreg id reg hid
  | spill slot =>
    apply EmitsInstrs.bind
    intro disp hoff
    exact hslot id slot disp hid (liftM_eq_ok hoff)

/-- An operand is loaded by setting a register, and perhaps the accumulator before. -/
theorem instrs_fetch (hallow : ∀ instr, Instr.Sets name instr → allowed instr)
    (hscr : AllowsScratch allowed) {isFloat : Bool} :
    EmitsInstrs 2 allowed (target.fetch isFloat opnd name) := by
  rw [fetch]
  split
  · apply EmitsInstrs.ite
    · intro _
      apply (hscr.emit (by decide) fun _ => sets_movImm).cons
      exact (EmitsInstrs.emit fun _ h => hallow _ (sets_movToXmm h)).last
    · exact fun _ => .mono (.emit fun _ h => hallow _ (sets_movImm h)) (Nat.le_succ 1)
  · refine EmitsInstrs.mono (instrs_atHome ?_ ?_) (Nat.le_succ 1)
    · exact fun _ _ _ => .emit fun _ h => hallow _ (sets_moveAs h)
    · exact fun _ _ _ _ _ => .emit fun _ h => hallow _ (sets_loadAs h)

theorem instrs_keep (op : Operation) {isFloat : Bool} :
    EmitsInstrs 1 (target.Permits op) (target.keep isFloat dest name) := by
  apply instrs_atHome
  · exact fun _ _ hhome => .emit fun _ h => permits_of_sets (.home hhome) (sets_moveAs h)
  · exact fun _ _ _ hhome hoff => .emit fun _ h =>
      permits_of_stores (.slot rfl hhome hoff) (stores_storeAs h)

/-! ## Operations -/

section Comparisons

variable (hscr : AllowsScratch allowed)
include hscr

theorem instrs_unorderedFix (comparison : Comparison) :
    EmitsInstrs 2 allowed (target.unorderedFix comparison) := by
  apply EmitsInstrs.ite fun _ => .nil
  intro _
  apply EmitsInstrs.ite
  · intro _
    apply (hscr.emit (by decide) fun _ => sets_setcc).cons
    exact (hscr.emit (by decide) fun _ => sets_alu8).last
  · intro _
    apply (hscr.emit (by decide) fun _ => sets_setcc).cons
    exact (hscr.emit (by decide) fun _ => sets_alu8).last

theorem instrs_floatCompare (comparison : Comparison) :
    EmitsInstrs 9 allowed (target.floatCompare comparison a b) := by
  apply (instrs_fetch (hscr _ (by decide)) hscr).cons
  apply (instrs_fetch (hscr _ (by decide)) hscr).cons
  apply (hscr.emit (by decide) fun _ => sets_fpCompare).cons
  apply (hscr.emit (by decide) fun _ => sets_setcc).cons
  apply (instrs_unorderedFix hscr comparison).cons
  exact (hscr.emit (by decide) fun _ => sets_movzx8).last

theorem instrs_integerCompare : EmitsInstrs 5 allowed (target.integerCompare a b) := by
  apply (instrs_fetch (hscr _ (by decide)) hscr).cons
  apply (instrs_fetch (hscr _ (by decide)) hscr).cons
  exact (hscr.emit (by decide) fun _ => sets_alu).last

end Comparisons

theorem instrs_takeStack (op : Operation) (dest : Operand) (off : Nat) :
    EmitsInstrs 2 (target.Permits op) (target.takeStack dest off) := by
  have hscr := target.allowsScratch_permits op
  apply EmitsInstrs.bind fun disp _ => ?_
  apply (hscr.emit (by decide) fun _ => @sets_loadAs _ _ _ _ _ false).cons
  apply EmitsInstrs.last
  apply instrs_atHome
  · intro id reg hhome
    apply EmitsInstrs.ite
    · exact fun _ => .emit fun _ h => permits_of_sets (.home hhome) (sets_movToXmm h)
    · exact fun _ => .emit fun _ h => permits_of_sets (.home hhome) (@sets_moveAs _ _ _ _ false h)
  · exact fun _ _ _ hhome hoff => .emit fun _ h =>
      permits_of_stores (.slot rfl hhome hoff) (@stores_storeAs _ _ _ _ _ false h)

theorem permits_of_isScratch {instr : Instr} (h : isScratch instr = true) :
    target.Permits op instr := by
  simp only [isScratch, Bool.and_eq_true, Bool.not_eq_true', all_eq_true,
    contains_iff_mem, Option.all_eq_true] at h
  refine ⟨h.1.1, fun name hname => .scratch (h.1.2 name hname), fun place bytes hstored => ?_⟩
  have hplace := h.2 _ hstored
  simp only [decide_eq_true_eq] at hplace
  exact ⟨.pointer hplace.1, hplace.2⟩

end Target

/-- Code of one grade is made of allowed instructions. -/
def Grade.Emits (n : Nat) (allowed : Instr → Prop) : Grade → Emission → Prop
  | .instrs => EmitsInstrs n allowed
  | .skips => EmitsStraight allowed
  | .any => fun _ => True

theorem Grade.emits_of_instrs (grade : Grade) (h : EmitsInstrs n allowed emission) :
    grade.Emits n allowed emission := by
  cases grade with
  | instrs => exact h
  | skips => exact .of_instrs h
  | any => trivial

/-- What lowered code may write, by induction over how it is made. -/
theorem Similar.emits {p : Pairing} {grade : Grade} {other : Emission} {op : Operation}
    (houtg : ∀ off, p.outgoing off → op.instruction = .call ∧
      Place.stack off ∈ p.first.convention.places ((op.sources.drop 1).map Operand.type))
    (h : Similar p grade n emission other) : grade.Emits n (p.first.Permits op) emission := by
  have hscr := p.first.allowsScratch_permits op
  induction h with
  | instr hmach hinstr =>
    cases hmach
    refine Grade.emits_of_instrs _ (.emit fun _ h => ?_)
    cases h
    exact permits_of_isScratch hinstr
  | @passed _ off _ hoff hinstr =>
    obtain ⟨hop, hplace⟩ := houtg off hoff
    have hstorable : p.first.Storable op ⟨Gpr.rsp, BitVec.ofNat 32 off⟩ :=
      .argument rfl hop hplace rfl
    refine Grade.emits_of_instrs _ (.emit fun _ h => ?_)
    cases h
    exact permits_of_stores hstorable hinstr
  | unsupported cause other =>
    refine Grade.emits_of_instrs _ fun items hitems => ?_
    cases hitems
  | fetch _ hdst =>
    exact Grade.emits_of_instrs _ (instrs_fetch (fun _ => permits_of_sets hdst) hscr)
  | keep _ => exact Grade.emits_of_instrs _ (instrs_keep op)
  | takeStack _ _ => exact Grade.emits_of_instrs _ (instrs_takeStack op _ _)
  | prologue | epilogue | enter | jump => trivial
  | nil => exact Grade.emits_of_instrs _ .nil
  | @cons grade _ _ _ _ _ _ _ _ ihfirst ihrest =>
    cases grade with
    | instrs => exact (EmitsInstrs.cons ihfirst ihrest).mono (Nat.add_comm ..).le
    | skips => exact EmitsStraight.cons ihfirst ihrest
    | any => trivial
  | @skip grade hgrade cond _ _ _ _ _ _ _ _ _ ihbody ihrest =>
    cases grade with
    | instrs => exact absurd rfl hgrade
    | skips => exact EmitsStraight.skip cond ihbody ihrest
    | any => trivial
  | @weaken grade _ _ _ _ hle _ ih =>
    cases grade with
    | instrs => exact EmitsInstrs.mono ih hle
    | skips => exact ih
    | any => trivial

/-- An operation that does not end its block is lowered to straight code. -/
theorem Target.straight_operation (target : Target) (op : Operation) (block : Block)
    (hop : op.instruction.isTerminator = false) :
    EmitsStraight (target.Permits op) (target.operation block op) := by
  let p : Pairing :=
    { first := target
      second := target
      outgoing := fun off => op.instruction = .call ∧
        Place.stack off ∈ target.convention.places ((op.sources.drop 1).map Operand.type) }
  have hside : Alongside p := ⟨rfl, rfl, rfl, fun _ => rfl⟩
  have hsim : Similar p .skips _ (target.operation block op) _ :=
    similar_operation hside (by rintro ⟨⟩) (by rw [hop]; rintro ⟨⟩) block
      ⟨fun _ _ => trivial, fun hcall _ hplace => ⟨hcall, hplace⟩⟩
  exact hsim.emits fun _ => id

/-! ## Acceptance and length -/

theorem length_members_le (mask : Mask) : mask.members.length ≤ 16 :=
  Nat.le_trans (length_filter_le ..) (by simp)

theorem length_adjust_le (frame : Frame) (op : AluOp) : (frame.adjust op).length ≤ 1 := by
  rw [Frame.adjust]
  split
  · exact Nat.zero_le 1
  · exact Nat.le_refl 1

theorem length_prologue_le (frame : Frame) : frame.prologue.length ≤ 40 := by
  have hpushed := length_members_le frame.intSaved
  have hstored := length_members_le frame.vecSaved
  have hadjust := length_adjust_le frame .sub
  simp only [Frame.prologue, Frame.saveSlots, length_append, length_map, length_zipIdx]
  omega

theorem length_epilogue_le (frame : Frame) : frame.epilogue.length ≤ 40 := by
  have hpopped := length_members_le frame.intSaved
  have hrestored := length_members_le frame.vecSaved
  have hadjust := length_adjust_le frame .add
  simp only [Frame.epilogue, Frame.saveSlots, length_append, length_map,
    length_zipIdx, length_reverse, length_singleton]
  omega

/-- Two emissions that are refused together, or give matching items. -/
inductive Paired (grade : Grade) (n : Nat) : Emission → Emission → Prop
  | both {xs ys : List Item} (hmatch : Matching xs ys) (hxs : xs.length ≤ n)
      (hys : ys.length ≤ n)
      (hinstrs : grade = .instrs → ∃ as bs : List Instr, xs = as.map .instr ∧ ys = bs.map .instr) :
      Paired grade n (.ok xs) (.ok ys)
  | neither (failure other : Failure) : Paired grade n (.error failure) (.error other)

namespace Paired

variable {grade : Grade} {a b : Emission}

theorem instrs (grade : Grade) {as bs : List Instr} (has : as.length ≤ n)
    (hbs : bs.length ≤ n) : Paired grade n (.ok (as.map .instr)) (.ok (bs.map .instr)) := by
  refine .both (.instrs as bs) ?_ ?_ fun _ => ⟨as, bs, rfl, rfl⟩
  · rwa [length_map]
  · rwa [length_map]

theorem of_instrs (grade : Grade) {allowed' : Instr → Prop} (ha : EmitsInstrs n allowed a)
    (hb : EmitsInstrs n allowed' b) (hok : a.isOk = b.isOk) : Paired grade n a b := by
  cases a with
  | error failure =>
    cases b with
    | error other => exact .neither failure other
    | ok ys => cases hok
  | ok xs =>
    cases b with
    | error other => cases hok
    | ok ys =>
      obtain ⟨as, rfl, -, has⟩ := ha xs rfl
      obtain ⟨bs, rfl, -, hbs⟩ := hb ys rfl
      exact .instrs grade has hbs

theorem mono (h : Paired grade m a b) (hle : m ≤ n) : Paired grade n a b := by
  cases h with
  | both hmatch hxs hys hinstrs =>
    exact .both hmatch (Nat.le_trans hxs hle) (Nat.le_trans hys hle) hinstrs
  | neither failure other => exact .neither failure other

theorem cons {as bs : List Emission} (hfirst : Paired grade m a b)
    (hrest : Paired grade n (sequence as) (sequence bs)) :
    Paired grade (m + n) (sequence (a :: as)) (sequence (b :: bs)) := by
  rw [sequence_cons, sequence_cons]
  cases hfirst with
  | neither failure other => exact .neither failure other
  | @both xs ys hmatch hxs hys hinstrs =>
    generalize sequence as = later at hrest ⊢
    generalize sequence bs = afterwards at hrest ⊢
    cases hrest with
    | neither failure other => exact .neither failure other
    | @both xs' ys' hmatch' hxs' hys' hinstrs' =>
      refine .both (hmatch.append hmatch') ?_ ?_ ?_
      · rw [length_append]
        omega
      · rw [length_append]
        omega
      · intro hgrade
        obtain ⟨as, bs, rfl, rfl⟩ := hinstrs hgrade
        obtain ⟨as', bs', rfl, rfl⟩ := hinstrs' hgrade
        exact ⟨as ++ as', bs ++ bs', map_append.symm, map_append.symm⟩

theorem skip (hgrade : grade ≠ .instrs) (cond : Condition) {xs ys as bs : List Emission}
    (hbody : Paired .instrs m (sequence xs) (sequence ys)) (hshort : m ≤ mostSkipped)
    (hrest : Paired grade n (sequence as) (sequence bs)) : Paired grade (m + n + 2)
      (sequence (.ok [.openNear cond] :: (xs ++ .ok [.closeNear] :: as)))
      (sequence (.ok [.openNear cond] :: (ys ++ .ok [.closeNear] :: bs))) := by
  simp only [sequence_cons, sequence_append]
  generalize sequence xs = body at hbody ⊢
  generalize sequence ys = otherBody at hbody ⊢
  cases hbody with
  | neither failure other => exact .neither failure other
  | both hmatch hxs hys hinstrs =>
    obtain ⟨instrs, others, rfl, rfl⟩ := hinstrs rfl
    generalize sequence as = later at hrest ⊢
    generalize sequence bs = afterwards at hrest ⊢
    cases hrest with
    | neither failure other => exact .neither failure other
    | both hmatch' hxs' hys' _ =>
      rw [length_map] at hxs hys
      refine .both (.skip cond (by omega) (by omega) hmatch') ?_ ?_ fun h => absurd h hgrade
      · simp only [length_cons, length_append, length_map, length_nil]
        omega
      · simp only [length_cons, length_append, length_map, length_nil]
        omega

end Paired

/-- Targets that accept single accesses alike accept everything alike. -/
theorem Similar.paired {p : Pairing} {grade : Grade} {a b : Emission} (hagree : Agree p)
    (h : Similar p grade n a b) : Paired grade n a b := by
  have hscr : AllowsScratch fun _ => True := fun _ _ _ _ => trivial
  induction h with
  | instr _ _ | passed _ _ =>
    exact .of_instrs _ (.emit fun _ _ => trivial) (.emit fun _ _ => trivial) rfl
  | unsupported _ _ => exact .neither _ _
  | fetch hfits _ =>
    exact .of_instrs _ (instrs_fetch (fun _ _ => trivial) hscr)
      (instrs_fetch (fun _ _ => trivial) hscr) (hagree.fetch hfits _)
  | keep hfits =>
    exact .of_instrs _ (instrs_keep .branch) (instrs_keep .branch) (hagree.keep hfits _)
  | takeStack hfits hplace =>
    exact .of_instrs _ (instrs_takeStack .branch _ _)
      (instrs_takeStack .branch _ _) (hagree.takeStack hfits hplace)
  | prologue => exact .instrs _ (length_prologue_le _) (length_prologue_le _)
  | epilogue => exact .instrs _ (length_epilogue_le _) (length_epilogue_le _)
  | enter block => exact .both (.enter block .nil) (Nat.le_refl 1) (Nat.le_refl 1) nofun
  | jump cond target =>
    exact .both (.jump cond target .nil) (Nat.le_refl 1) (Nat.le_refl 1) nofun
  | nil =>
    have hempty : ([] : List Instr).length ≤ 0 := Nat.le_refl 0
    exact .instrs _ hempty hempty
  | cons _ _ ihfirst ihrest => exact ihfirst.cons ihrest
  | skip hgrade cond _ hshort _ ihbody ihrest =>
    exact .skip hgrade cond ihbody hshort ihrest
  | weaken hle _ ih => exact ih.mono hle

end Lowering

end GraphJit
