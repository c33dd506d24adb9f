import GraphJit.Proofs.Decoding
import GraphJit.Proofs.LoweredInstructions

/-! # Code tells which calls made it

The assembler is called with host registers that may name nothing, with types, and with
offsets of any size. Main statement: for either vector instruction set the bytes behind
a buffer determine the calls that succeeded, up to what a call does not look at: of a type
it takes the size, and of a constant for a 32-bit register the low half. No encoding is
the start of another one, and neither calls that fail nor looking at the position leave
a trace, whatever is pending at that time.
-/

namespace GraphJit.X64

open List

open Lowering (nameOf vectorNameOf)

namespace Assembler

/-- The calls of the assembler, with their arguments as they are passed. -/
inductive Call where
  | mov (width : Width) (dst src : HostRegister)
  | movImm (width : Width) (dst : HostRegister) (value : BitVec 64)
  | load (width : Width) (dst base : HostRegister) (disp : BitVec 32)
  | store (width : Width) (base : HostRegister) (disp : BitVec 32) (src : HostRegister)
  | alu (op : AluOp) (width : Width) (dst src : HostRegister)
  | aluImm (op : AluOp) (width : Width) (dst : HostRegister) (value : BitVec 32)
  | imul (width : Width) (dst src : HostRegister)
  | shift (op : ShiftOp) (width : Width) (dst : HostRegister)
  | unary (op : UnaryOp) (width : Width) (reg : HostRegister)
  | signExtendAccumulator (width : Width)
  | setcc (cond : Condition) (dst : HostRegister)
  | alu8 (op : ByteOp) (dst src : HostRegister)
  | movzx8 (dst src : HostRegister)
  | movsxd (dst src : HostRegister)
  | push (reg : HostRegister)
  | pop (reg : HostRegister)
  | callReg (reg : HostRegister)
  | ret
  | fpMov (dst src : HostRegister)
  | fpXor (dst src : HostRegister)
  | fpLoad (type : ValueType) (dst base : HostRegister) (disp : BitVec 32)
  | fpStore (type : ValueType) (base : HostRegister) (disp : BitVec 32) (src : HostRegister)
  | fpBinary (op : FloatOp) (type : ValueType) (dst src : HostRegister)
  | fpCompare (type : ValueType) (a b : HostRegister)
  | movToXmm (width : Width) (dst src : HostRegister)
  | cvtIntToFp (int : Width) (type : ValueType) (dst src : HostRegister)
  | cvtFpToInt (int : Width) (type : ValueType) (dst src : HostRegister)
  | cvtFpToFp (type : ValueType) (dst src : HostRegister)
  | saveXmm (base : HostRegister) (disp : BitVec 32) (src : HostRegister)
  | restoreXmm (dst base : HostRegister) (disp : BitVec 32)
  | jmp (off : Int)
  | jcc (cond : Condition) (off : Int)
deriving DecidableEq, Repr

namespace Call

/-- The instruction that a call asks for. -/
def assemble : Call → Result Instr
  | mov width dst src => Assembler.mov width dst src
  | movImm width dst value => Assembler.movImm width dst value
  | load width dst base disp => Assembler.load width dst base disp
  | store width base disp src => Assembler.store width base disp src
  | alu op width dst src => Assembler.alu op width dst src
  | aluImm op width dst value => Assembler.aluImm op width dst value
  | imul width dst src => Assembler.imul width dst src
  | shift op width dst => Assembler.shift op width dst
  | unary op width reg => Assembler.unary op width reg
  | signExtendAccumulator width => .ok (.signExtendAccumulator width)
  | setcc cond dst => Assembler.setcc cond dst
  | alu8 op dst src => Assembler.alu8 op dst src
  | movzx8 dst src => Assembler.movzx8 dst src
  | movsxd dst src => Assembler.movsxd dst src
  | push reg => Assembler.push reg
  | pop reg => Assembler.pop reg
  | callReg reg => Assembler.callReg reg
  | ret => .ok .ret
  | fpMov dst src => Assembler.fpMov dst src
  | fpXor dst src => Assembler.fpXor dst src
  | fpLoad type dst base disp => Assembler.fpLoad (.ofType type) dst base disp
  | fpStore type base disp src => Assembler.fpStore (.ofType type) base disp src
  | fpBinary op type dst src => Assembler.fpBinary op (.ofType type) dst src
  | fpCompare type a b => Assembler.fpCompare (.ofType type) a b
  | movToXmm width dst src => Assembler.movToXmm width dst src
  | cvtIntToFp int type dst src => Assembler.cvtIntToFp int (.ofType type) dst src
  | cvtFpToInt int type dst src => Assembler.cvtFpToInt int (.ofType type) dst src
  | cvtFpToFp type dst src => Assembler.cvtFpToFp (.ofType type) dst src
  | saveXmm base disp src => Assembler.saveXmm base disp src
  | restoreXmm dst base disp => Assembler.restoreXmm dst base disp
  | jmp off => Assembler.jmp off
  | jcc cond off => Assembler.jcc cond off

/-- The float type of a width. -/
def floatOf : Width → ValueType
  | .w32 => .f32
  | .w64 => .f64

/-- A call without what it does not look at: a type counts by its size, and a constant for
a 32-bit register by its low half. -/
def essence : Call → Call
  | movImm .w32 dst value => movImm .w32 dst ((value.setWidth 32).setWidth 64)
  | fpLoad type dst base disp => fpLoad (floatOf (.ofType type)) dst base disp
  | fpStore type base disp src => fpStore (floatOf (.ofType type)) base disp src
  | fpBinary op type dst src => fpBinary op (floatOf (.ofType type)) dst src
  | fpCompare type a b => fpCompare (floatOf (.ofType type)) a b
  | cvtIntToFp int type dst src => cvtIntToFp int (floatOf (.ofType type)) dst src
  | cvtFpToInt int type dst src => cvtFpToInt int (floatOf (.ofType type)) dst src
  | cvtFpToFp type dst src => cvtFpToFp (floatOf (.ofType type)) dst src
  | call => call

end Call

/-! ## From an instruction back to the call -/

/-- The call that an instruction came from. -/
def callOf : Instr → Call
  | .mov width dst src => .mov width (nameOf dst) (nameOf src)
  | .movImm32 dst value => .movImm .w32 (nameOf dst) (value.setWidth 64)
  | .movImm64 dst value => .movImm .w64 (nameOf dst) value
  | .load width dst source => .load width (nameOf dst) (nameOf source.base) source.displacement
  | .store width target src => .store width (nameOf target.base) target.displacement (nameOf src)
  | .alu op width dst src => .alu op width (nameOf dst) (nameOf src)
  | .aluImm op width dst value => .aluImm op width (nameOf dst) value
  | .imul width dst src => .imul width (nameOf dst) (nameOf src)
  | .shift op width dst => .shift op width (nameOf dst)
  | .unary op width reg => .unary op width (nameOf reg)
  | .signExtendAccumulator width => .signExtendAccumulator width
  | .setcc cond dst => .setcc cond (nameOf dst)
  | .alu8 op dst src => .alu8 op (nameOf dst) (nameOf src)
  | .movzx8 dst src => .movzx8 (nameOf dst) (nameOf src)
  | .movsxd dst src => .movsxd (nameOf dst) (nameOf src)
  | .push reg => .push (nameOf reg)
  | .pop reg => .pop (nameOf reg)
  | .callReg reg => .callReg (nameOf reg)
  | .ret => .ret
  | .fpMov dst src => .fpMov (vectorNameOf dst) (vectorNameOf src)
  | .fpXor dst src => .fpXor (vectorNameOf dst) (vectorNameOf src)
  | .fpLoad width dst source =>
    .fpLoad (Call.floatOf width) (vectorNameOf dst) (nameOf source.base) source.displacement
  | .fpStore width target src =>
    .fpStore (Call.floatOf width) (nameOf target.base) target.displacement (vectorNameOf src)
  | .fpBinary op width dst src =>
    .fpBinary op (Call.floatOf width) (vectorNameOf dst) (vectorNameOf src)
  | .fpCompare width a b => .fpCompare (Call.floatOf width) (vectorNameOf a) (vectorNameOf b)
  | .movToXmm width dst src => .movToXmm width (vectorNameOf dst) (nameOf src)
  | .cvtIntToFp int float dst src =>
    .cvtIntToFp int (Call.floatOf float) (vectorNameOf dst) (nameOf src)
  | .cvtFpToInt int float dst src =>
    .cvtFpToInt int (Call.floatOf float) (nameOf dst) (vectorNameOf src)
  | .cvtFpToFp target dst src => .cvtFpToFp (Call.floatOf target) (vectorNameOf dst) (vectorNameOf src)
  | .saveXmm target src => .saveXmm (nameOf target.base) target.displacement (vectorNameOf src)
  | .restoreXmm dst source => .restoreXmm (vectorNameOf dst) (nameOf source.base) source.displacement
  | .jmp off => .jmp off.toInt
  | .jcc cond off => .jcc cond off.toInt

/-- An instruction tells the call that it was assembled from. -/
theorem callOf_of_assemble {call : Call} {instr : Instr} (hcall : call.assemble = .ok instr) :
    callOf instr = call.essence := by
  cases call with
  | mov | load | store | alu | imul | alu8 | movzx8 | movsxd =>
    obtain ⟨first, hfirst, hrest⟩ := of_bind hcall
    obtain ⟨second, hsecond, hlast⟩ := of_bind hrest
    cases hlast
    simp only [callOf, of_general hfirst, of_general hsecond, Call.essence]
  | aluImm | shift | unary | setcc | push | pop | callReg =>
    obtain ⟨opnd, hopnd, hlast⟩ := of_bind hcall
    cases hlast
    simp only [callOf, of_general hopnd, Call.essence]
  | movImm width dst value =>
    obtain ⟨opnd, hopnd, hlast⟩ := of_bind hcall
    cases width <;> cases hlast <;> simp only [callOf, of_general hopnd, Call.essence]
  | fpMov | fpXor | fpBinary | fpCompare | cvtFpToFp =>
    obtain ⟨first, hfirst, hrest⟩ := of_bind hcall
    obtain ⟨second, hsecond, hlast⟩ := of_bind hrest
    cases hlast
    simp only [callOf, of_vector hfirst, of_vector hsecond, Call.essence]
  | fpLoad | fpStore | movToXmm | cvtIntToFp | cvtFpToInt | saveXmm | restoreXmm =>
    obtain ⟨first, hfirst, hrest⟩ := of_bind hcall
    obtain ⟨second, hsecond, hlast⟩ := of_bind hrest
    cases hlast
    simp only [callOf, of_vector hfirst, of_general hsecond, Call.essence]
  | signExtendAccumulator | ret =>
    cases hcall
    rfl
  | jmp off =>
    rw [Call.assemble, Assembler.jmp] at hcall
    split at hcall
    next hfits =>
      cases hcall
      rw [callOf, Code.toInt_ofInt_of_fits hfits]
      rfl
    next => cases hcall
  | jcc cond off =>
    rw [Call.assemble, Assembler.jcc] at hcall
    split at hcall
    next hfits =>
      cases hcall
      rw [callOf, Code.toInt_ofInt_of_fits hfits]
      rfl
    next => cases hcall

/-- A call does not look at more than its essence. -/
theorem assemble_essence (call : Call) : call.essence.assemble = call.assemble := by
  have hwidth (width : Width) : Width.ofType (Call.floatOf width) = width := by cases width <;> rfl
  cases call with
  | movImm width dst value =>
    cases width with
    | w32 => simp [Call.essence, Call.assemble, Assembler.movImm]
    | w64 => rfl
  | fpLoad | fpStore | fpBinary | fpCompare | cvtIntToFp | cvtFpToInt | cvtFpToFp =>
    rw [Call.essence, Call.assemble, hwidth, Call.assemble]
  | _ => rfl

theorem assemble_callOf {call : Call} {instr : Instr} (hcall : call.assemble = .ok instr) :
    (callOf instr).assemble = .ok instr := by
  rw [callOf_of_assemble hcall, assemble_essence, hcall]

/-! ## Buffers -/

/-- What is done with a buffer. -/
inductive Step where
  | call (made : Call)
  /-- Look at the position. -/
  | position
deriving DecidableEq, Repr

namespace Step

/-- The buffer after a step. -/
def after (buffer : Code.Buffer) : Step → Code.Buffer
  | .call made =>
    match made.assemble with
    | .ok instr => (buffer.step (.instr instr)).1
    | .error _ => buffer
  | .position => buffer.position.1

/-- The call of a step, if there is one and it succeeds. -/
def succeeded? : Step → Option Call
  | .call made => if made.assemble.isOk then some made else none
  | .position => none

/-- The instruction that a step adds. -/
def instr? : Step → Option Instr
  | .call made => made.assemble.toOption
  | .position => none

end Step

/-- Whatever is pending, the stream is the one that the instructions are emitted to. -/
theorem flush_foldl_after (buffer : Code.Buffer) (steps : List Step) :
    (steps.foldl Step.after buffer).flush =
      buffer.flush.carryOn ((steps.filterMap Step.instr?).map .instr) := by
  induction steps generalizing buffer with
  | nil => rfl
  | cons step steps ih =>
    rw [foldl_cons, ih]
    cases step with
    | position => rw [Step.after, Code.Buffer.position, Code.Buffer.flush_mk]; rfl
    | call made =>
      cases hmade : made.assemble with
      | error cause => simp [Step.after, Step.instr?, hmade, Except.toOption]
      | ok instr =>
        simp only [Step.after, hmade, Step.instr?, Except.toOption, filterMap_cons, map_cons,
          (Code.Buffer.flush_step buffer _).1]
        rfl

theorem code_carryOn (stream : Code.Stream) (instrs : List Instr) :
    (stream.carryOn (instrs.map .instr)).code.toList =
      stream.code.toList ++ instrs.flatMap (Instr.encode stream.avx) := by
  induction instrs generalizing stream with
  | nil => simp [Code.Stream.carryOn]
  | cons instr instrs ih =>
    rw [map_cons, flatMap_cons, ← append_assoc]
    refine (ih (stream.append (instr.encode stream.avx))).trans ?_
    simp [Code.Stream.append]

end Assembler

/-! ## Bytes determine instructions -/

theorem encode_append_inj (avx : Bool) {i j : Instr} {rest others : List UInt8}
    (hcode : i.encode avx ++ rest = j.encode avx ++ others) : i = j ∧ rest = others := by
  have hread := reads_encode avx i rest
  rw [hcode, reads_encode avx j others] at hread
  simp only [Option.some.injEq, Prod.mk.injEq] at hread
  exact ⟨hread.1.2.symm, hread.2.symm⟩

theorem flatMap_encode_inj (avx : Bool) {first second : List Instr}
    (hcode : first.flatMap (Instr.encode avx) = second.flatMap (Instr.encode avx)) :
    first = second := by
  induction first generalizing second with
  | nil =>
    cases second with
    | nil => rfl
    | cons j second =>
      rw [flatMap_nil, flatMap_cons] at hcode
      exact absurd (append_eq_nil_iff.mp hcode.symm).1 (encode_ne_nil avx j)
  | cons i first ih =>
    cases second with
    | nil =>
      rw [flatMap_nil, flatMap_cons] at hcode
      exact absurd (append_eq_nil_iff.mp hcode).1 (encode_ne_nil avx i)
    | cons j second =>
      rw [flatMap_cons, flatMap_cons] at hcode
      obtain ⟨rfl, hrest⟩ := encode_append_inj avx hcode
      rw [ih hrest]

namespace Assembler

/-- The calls of some steps have the same essences exactly if they add the same instructions. -/
theorem essences_eq_iff {steps others : List Step} :
    (steps.filterMap Step.succeeded?).map Call.essence =
        (others.filterMap Step.succeeded?).map Call.essence ↔
      steps.filterMap Step.instr? = others.filterMap Step.instr? := by
  have hcalls (steps : List Step) : (steps.filterMap Step.succeeded?).map Call.essence =
      (steps.filterMap Step.instr?).map callOf := by
    rw [map_filterMap, map_filterMap]
    congr 1
    funext step
    cases step with
    | position => rfl
    | call call =>
      cases hcall : call.assemble with
      | error cause => simp [Step.succeeded?, Step.instr?, hcall, Except.isOk, Except.toBool,
          Except.toOption]
      | ok instr => simp [Step.succeeded?, Step.instr?, hcall, Except.isOk, Except.toBool,
          Except.toOption, callOf_of_assemble hcall]
  have hinstrs (steps : List Step) : ((steps.filterMap Step.instr?).map callOf).filterMap
      (fun call => call.assemble.toOption) = steps.filterMap Step.instr? := by
    rw [filterMap_map, filterMap_filterMap]
    refine filterMap_congr fun step _ => ?_
    cases step with
    | position => rfl
    | call call =>
      cases hcall : call.assemble with
      | error cause => simp [Step.instr?, hcall, Except.toOption]
      | ok instr => simp [Step.instr?, hcall, Except.toOption, assemble_callOf hcall]
  rw [hcalls, hcalls]
  refine ⟨fun hessence => ?_, congrArg _⟩
  rw [← hinstrs, hessence, hinstrs]

/-- No encoding is the start of another one, the stream behind a buffer does not depend on when
its position is looked at, and the bytes that steps add tell which calls succeeded. -/
theorem code_determines_calls (buffer : Code.Buffer) :
    (∀ (a b : Call) (i j : Instr), a.assemble = .ok i → b.assemble = .ok j →
      i.encode buffer.stream.avx <+: j.encode buffer.stream.avx →
        i.encode buffer.stream.avx = j.encode buffer.stream.avx ∧ a.essence = b.essence) ∧
    (∀ steps : List Step, (steps.foldl Step.after buffer).flush =
      buffer.flush.carryOn ((steps.filterMap Step.instr?).map .instr)) ∧
    (∀ steps others : List Step, (steps.foldl Step.after buffer).flush.code =
        (others.foldl Step.after buffer).flush.code ↔
      (steps.filterMap Step.succeeded?).map Call.essence =
        (others.filterMap Step.succeeded?).map Call.essence) ∧
    ∀ (call : Call) (cause : EncodingError), call.assemble = .error cause →
      (Step.call call).after buffer = buffer := by
  refine ⟨fun a b i j ha hb hbegins => ?_, flush_foldl_after buffer, fun steps others => ?_,
    fun call cause hcall => ?_⟩
  · obtain ⟨rest, hrest⟩ := hbegins
    rw [← List.append_nil (j.encode buffer.stream.avx)] at hrest
    obtain ⟨rfl, -⟩ := encode_append_inj buffer.stream.avx hrest
    exact ⟨rfl, (callOf_of_assemble ha).symm.trans (callOf_of_assemble hb)⟩
  · rw [essences_eq_iff, ← Array.toList_inj, flush_foldl_after, flush_foldl_after, code_carryOn,
      code_carryOn, List.append_cancel_left_eq]
    exact ⟨flatMap_encode_inj buffer.flush.avx, fun hinstr => by rw [hinstr]⟩
  · rw [Step.after, hcall]

/-- A constant counts by its low half, a jump comes behind what is pending, and a register that
does not exist leaves nothing. -/
theorem code_determines_calls_low_half :
    (Call.movImm .w32 (.gp 0) 5).essence = (Call.movImm .w32 (.gp 0) 0x100000005).essence ∧
    (([.call (.movImm .w32 (.gp 0) 5), .position, .call (.jmp 300),
        .call (.mov .w64 (.gp 0) (.gp 16))] : List Step).foldl Step.after (.new true 0)).flush.code =
      (([.call (.movImm .w32 (.gp 0) 0x100000005), .call (.jmp 300)] : List Step).foldl Step.after
        (.new true 0)).flush.code ∧
    (Step.call (.mov .w64 (.gp 0) (.gp 16))).after (.new true 0) = .new true 0 := by
  obtain ⟨hbegins, -, hcode, hfailed⟩ := code_determines_calls (.new true 0)
  refine ⟨?_, (hcode _ _).mpr (by decide), hfailed _ (.notRegister (.gp 16) .word64) rfl⟩
  exact (hbegins _ _ (.movImm32 ⟨⟨0, by decide⟩⟩ 5) (.movImm32 ⟨⟨0, by decide⟩⟩ 5) rfl rfl
    prefix_rfl).2

end Assembler

end GraphJit.X64
