import GraphJit.Proofs.JumpTargets
import GraphJit.X64.Decode
import Mathlib.Tactic.IntervalCases

/-! # Decoding encoded instructions

The decoder reads from the front of a list of bytes. It takes exactly the bytes of
an encoded instruction and finds that instruction, whatever follows. So code means
what was encoded into it, and no encoding is the start of another one.
-/

namespace GraphJit.X64

open List Instr

/-- The reader takes exactly these bytes, whatever follows, and finds the value. -/
def Reads {α : Type} (reader : Reader α) (bytes : List UInt8) (value : α) : Prop :=
  ∀ rest, reader.run (bytes ++ rest) = some (value, rest)

namespace Reads

variable {α β : Type} {first : Reader α} {a : α} {b : β} {bytes more : List UInt8}

theorem pure (a : α) : Reads (pure a) [] a := fun _ => rfl

theorem bind {next : α → Reader β} (hfirst : Reads first bytes a) (hnext : Reads (next a) more b) :
    Reads (first >>= next) (bytes ++ more) b := by
  intro rest
  rw [append_assoc, StateT.run_bind, hfirst]
  exact hnext rest

/-- The last reader of a chain, whose value is only packed. -/
theorem last {next : α → Reader β} (hfirst : Reads first bytes a) (hnext : Reads (next a) [] b) :
    Reads (first >>= next) bytes b := by
  rw [← append_nil bytes]
  exact hfirst.bind hnext

theorem next (value : UInt8) : Reads Reader.next [value] value := fun _ => rfl

theorem lift {answer : Option α} (hanswer : answer = some a) : Reads (liftM answer) [] a := by
  intro rest
  rw [hanswer]
  rfl

theorem check {cond : Prop} [Decidable cond] (hcond : cond) : Reads (guard cond) [] () := by
  intro rest
  rw [guard, if_pos hcond]
  rfl

end Reads

/-! ## Words -/

theorem reads_word {width : Nat} (word : BitVec width) (count : Nat) :
    Reads (Reader.word width count) (littleEndian word count)
      ((word.setWidth (8 * count)).setWidth width) := by
  induction count generalizing word with
  | zero =>
    have hzero : (word.setWidth (8 * 0)).setWidth width = 0 := by
      apply BitVec.eq_of_getLsbD_eq
      intro j hj
      simp
    rw [hzero]
    exact .pure 0
  | succ count ih =>
    have hbits : (UInt8.ofBitVec (word.setWidth 8)).toBitVec.setWidth width
        ||| (((word >>> 8).setWidth (8 * count)).setWidth width <<< 8)
          = (word.setWidth (8 * (count + 1))).setWidth width := by
      apply BitVec.eq_of_getLsbD_eq
      intro j hj
      rcases Nat.lt_or_ge j 8 with hlow | hhigh
      · simp [hj, hlow, show j < 8 * (count + 1) by omega]
      · have hindex : 8 + (j - 8) = j := by omega
        have hbound : j - 8 < 8 * count ↔ j < 8 * (count + 1) := by omega
        simp [hj, show ¬j < 8 by omega, show j - 8 < width by omega, hindex, hbound]
    rw [← hbits]
    exact (Reads.next _).bind ((ih (word >>> 8)).last (.pure _))

theorem reads_word32 (word : BitVec 32) : Reads (Reader.word 32 4) (littleEndian word 4) word := by
  have hread := reads_word word 4
  rwa [BitVec.setWidth_eq, BitVec.setWidth_eq] at hread

theorem reads_word64 (word : BitVec 64) : Reads (Reader.word 64 8) (littleEndian word 8) word := by
  have hread := reads_word word 8
  rwa [BitVec.setWidth_eq, BitVec.setWidth_eq] at hread

variable {instr : Instr} {word : BitVec 32} {low : Nat} {value : UInt8} {tail : List UInt8}
  {lead : VectorLead}

/-- A word that fits in a byte is what the byte stands for. -/
theorem signExtend_setWidth_of_fits (hfits : fitsByte word.toInt) :
    (word.setWidth 8).signExtend 32 = word := by
  apply BitVec.eq_of_toInt_eq
  rw [BitVec.toInt_signExtend_of_le (by decide)]
  obtain ⟨hlow, hhigh⟩ := of_decide_eq_true hfits
  have hbound : twoPow (8 - 1) = 128 := rfl
  rw [hbound] at hlow hhigh
  have hword := BitVec.toInt_eq_toNat_cond word
  have hsmall : word.toNat < 2 ^ 32 := word.isLt
  rw [BitVec.toInt_setWidth, Int.bmod_def]
  split at hword <;> split <;> omega

theorem reads_oneByte (value : BitVec 8) :
    Reads (Reader.signedByte 32) [UInt8.ofBitVec value] (value.signExtend 32) :=
  (Reads.next _).last (.pure _)

theorem reads_signedByte (hfits : fitsByte word.toInt) :
    Reads (Reader.signedByte 32) (littleEndian word 1) word := by
  have hread := reads_oneByte (word.setWidth 8)
  rwa [signExtend_setWidth_of_fits hfits] at hread

theorem ofInt_toInt (word : BitVec 32) : BitVec.ofInt 8 word.toInt = word.setWidth 8 := by
  apply BitVec.eq_of_toNat_eq
  have hword := BitVec.toInt_eq_toNat_cond word
  rw [BitVec.toNat_ofInt, BitVec.toNat_setWidth]
  split at hword <;> omega

theorem reads_shortOffset {off : BitVec 32} (hfits : fitsByte off.toInt) :
    Reads (Reader.signedByte 32) [UInt8.ofBitVec (BitVec.ofInt 8 off.toInt)] off := by
  rw [ofInt_toInt]
  exact reads_signedByte hfits

/-! ## Operand fields -/

theorem lowBits_lt (index : Fin 16) : lowBits index < 8 := Nat.mod_lt _ (by decide)

theorem toNat_modRM {mode reg rm : Nat} (hmode : mode < 4) (hreg : reg < 8)
    (hrm : rm < 8) : (modRM mode reg rm).toNat = mode * 64 + reg * 8 + rm := by
  rw [modRM, byte, UInt8.toNat_ofNat_of_lt']
  change mode * 64 + reg * 8 + rm < 256
  omega

/-- The extension bit and the low bits make up the register. -/
theorem registerNumber_eq {index : Fin 16} (hlow : low % 8 = lowBits index) :
    registerNumber (isExtended index) low = index := by
  apply Fin.ext
  rw [registerNumber, hlow, lowBits, nibble, isExtended]
  rcases Nat.lt_or_ge index.val 8 with hlt | hge
  · simp [show ¬8 ≤ index.val by omega]
    omega
  · simp [hge]
    omega

theorem registerNumber_congr (extension : Bool) {a b : Nat} (hmod : a % 8 = b % 8) :
    registerNumber extension a = registerNumber extension b := by
  rw [registerNumber, registerNumber, hmod]

theorem reads_fields (wide extension : Bool) (hlow : low < 8) (rm : RegMem) :
    Reads (readFields ⟨wide, extension, isExtended rm.index⟩) (operandBytes low rm)
      ⟨registerNumber extension low, rm⟩ := by
  cases rm with
  | reg index =>
    have hbase := lowBits_lt index
    have hvalue := toNat_modRM (show 3 < 4 by decide) hlow hbase
    change Reads (readFields ⟨wide, extension, isExtended index⟩) _ _
    refine (Reads.next _).last ?_
    rw [hvalue, if_pos (by omega)]
    rw [registerNumber_congr extension (show (3 * 64 + low * 8 + lowBits index) / 8 % 8 = low % 8
      by omega), registerNumber_eq (by omega)]
    exact .pure _
  | mem addr =>
    have hbase := lowBits_lt addr.base.index
    -- all three modes differ only in how the displacement is read
    have hfield {mode : Nat} {disp : List UInt8} (hmode : mode < 3)
        (hread : Reads (readDisplacement mode (lowBits addr.base.index)) disp addr.displacement) :
        Reads (readFields ⟨wide, extension, isExtended addr.base.index⟩)
          (modRM mode low (lowBits addr.base.index) :: (indexByte addr.base ++ disp))
          ⟨registerNumber extension low, .mem addr⟩ := by
      have hvalue := toNat_modRM (show mode < 4 by omega) hlow hbase
      refine (Reads.next _).bind ?_
      rw [hvalue, if_neg (by omega)]
      rw [registerNumber_congr extension (show (mode * 64 + low * 8
        + lowBits addr.base.index) / 8 % 8 = low % 8 by omega), registerNumber_eq (by omega),
        show (mode * 64 + low * 8 + lowBits addr.base.index) / 64 = mode by omega,
        show (mode * 64 + low * 8 + lowBits addr.base.index) % 8 = lowBits addr.base.index by omega]
      rw [indexByte]
      split
      · exact (Reads.next _).bind ((Reads.check rfl).bind (hread.last (.pure _)))
      · exact hread.last (.pure _)
    change Reads (readFields ⟨wide, extension, isExtended addr.base.index⟩) _ _
    rw [operandBytes]
    split
    next hnone =>
      rw [← append_nil (indexByte _)]
      refine hfield (show 0 < 3 by decide) ?_
      rw [readDisplacement, if_neg hnone.2, hnone.1]
      exact .pure _
    next =>
      split
      next hfits => exact hfield (show 1 < 3 by decide) (reads_signedByte hfits)
      next => exact hfield (show 2 < 3 by decide) (reads_word32 _)

theorem reads_extended (wide : Bool) {extension : Nat} (hextn : extension < 8) (reg : Gpr) :
    Reads (readExtended ⟨wide, false, isExtended reg.index⟩)
      (operandBytes extension (.reg reg.index)) (extension, reg) := by
  have hlow : lowBits (registerNumber false extension) = extension := by
    rw [lowBits, registerNumber, nibble]
    change (extension % 8 + 8 * 0) % 16 % 8 = extension
    omega
  refine (reads_fields wide false hextn (.reg reg.index)).last ?_
  dsimp only
  rw [hlow]
  exact .pure _

theorem reads_pair (wide : Bool) (reg other : Gpr) :
    Reads (readPair ⟨wide, isExtended reg.index, isExtended other.index⟩)
      (operandBytes (lowBits reg.index) (.reg other.index)) (reg, other) := by
  refine (reads_fields wide _ (lowBits_lt _) (.reg other.index)).last ?_
  rw [registerNumber_eq (Nat.mod_eq_of_lt (lowBits_lt _))]
  exact .pure _

/-! ## Lead bytes -/

/-- Whether an instruction can start with lead bytes that start with this one. -/
def isLead (value : UInt8) : Bool := [0x66, 0xF3, 0xF2, 0xC4, 0xC5].contains value

theorem readLead_cons (hvalue : isLead value = false) (rest : List UInt8) :
    readLead.run (value :: rest) = some (.bare, value :: rest) := by
  change readLead (value :: rest) = _
  unfold readLead
  split
  next hbytes =>
    cases hbytes
    cases hvalue
  next hbytes =>
    cases hbytes
    cases hvalue
  next hbytes =>
    cases hbytes
    cases hvalue
  next => rfl

theorem readInstr_cons (hvalue : isLead value = false) (rest : List UInt8) :
    readInstr.run (value :: rest) = (readPlain.run (value :: rest)).map
      fun (instr, rest) => ((false, instr), rest) := by
  change readInstr (value :: rest) = _
  unfold readInstr
  split
  next hbytes =>
    cases hbytes
    cases hvalue
  next hbytes =>
    cases hbytes
    cases hvalue
  next => rfl

/-- Whether a byte can be an opcode, since it stands neither for extension bits nor for a lead. -/
def isOpcode (value : UInt8) : Bool := decide (value.toNat / 16 ≠ 4) && !isLead value

section Opcode

variable {opcode : UInt8} (hopcode : isOpcode opcode = true) (forced wide reg rm : Bool)
  (rest : List UInt8)
include hopcode

theorem readExtensions_rexBytes : readExtensions.run (rexBytes forced wide reg rm ++ opcode :: rest)
      = some (⟨wide, reg, rm⟩, opcode :: rest) := by
  rw [isOpcode, Bool.and_eq_true, decide_eq_true_eq] at hopcode
  have hbare : readExtensions.run (opcode :: rest) = some ({}, opcode :: rest) := if_neg hopcode.1
  cases forced <;> cases wide <;> cases reg <;> cases rm <;> first | exact hbare | rfl

theorem exists_cons_rexBytes :
    ∃ value tail, rexBytes forced wide reg rm ++ opcode :: rest = value :: tail ∧
      isLead value = false := by
  rw [isOpcode, Bool.and_eq_true, Bool.not_eq_true'] at hopcode
  rw [rexBytes]
  split
  · refine ⟨_, _, rfl, ?_⟩
    cases wide <;> cases reg <;> cases rm <;> rfl
  · exact ⟨_, _, rfl, hopcode.2⟩

/-- An opcode, after extension bits or not, starts an instruction outside the extended vector
set. -/
theorem readInstr_rexBytes : readInstr.run (rexBytes forced wide reg rm ++ opcode :: rest)
      = ((if opcode = 0x0F then readLong .bare ⟨wide, reg, rm⟩
          else readShort ⟨wide, reg, rm⟩ opcode).run rest).map
            fun (instr, rest) => ((false, instr), rest) := by
  have hextensions := readExtensions_rexBytes hopcode forced wide reg rm rest
  obtain ⟨value, tail, hbytes, hvalue⟩ := exists_cons_rexBytes hopcode forced wide reg rm rest
  rw [hbytes] at hextensions ⊢
  rw [readInstr_cons hvalue, readPlain]
  simp only [StateT.run_bind, readLead_cons hvalue, hextensions, Option.bind_eq_bind,
    Option.bind_some]
  change Option.map _ (StateT.run (ite _ _ _ : Reader Instr) rest) = _
  split
  · rfl
  · rfl

end Opcode

/-- Whether a byte is an opcode by itself. -/
def isShort (value : UInt8) : Bool := isOpcode value && decide (value ≠ 0x0F)

variable {forced wide reg rm : Bool}

theorem Reads.short {opcode : UInt8} (hopcode : isShort opcode = true)
    (hread : Reads (readShort ⟨wide, reg, rm⟩ opcode) tail instr) :
    Reads readInstr (rexBytes forced wide reg rm ++ opcode :: tail) (false, instr) := by
  rw [isShort, Bool.and_eq_true, decide_eq_true_eq] at hopcode
  intro rest
  rw [append_assoc, cons_append, readInstr_rexBytes hopcode.1, if_neg hopcode.2, hread]
  rfl

theorem Reads.long (hread : Reads (readLong .bare ⟨wide, reg, rm⟩) tail instr) :
    Reads readInstr (rexBytes forced wide reg rm ++ 0x0F :: tail) (false, instr) := by
  intro rest
  rw [append_assoc, cons_append, readInstr_rexBytes rfl, if_pos rfl, hread]
  rfl

/-! ## Integer instructions -/

theorem width_isWide (width : Width) (reg rm : Bool) :
    (Extensions.mk width.isWide reg rm).width = width := by
  cases width <;> rfl

section Readers

variable (extensions : Extensions)

theorem readShort_alu (op : AluOp) : readShort extensions op.opcode = (do
      let (src, dst) ← readPair extensions
      return .alu op extensions.width dst src) := by
  cases op <;> rfl

theorem readShort_alu8 (op : ByteOp) : readShort extensions op.opcode = (do
      let (src, dst) ← readPair extensions
      return .alu8 op dst src) := by
  cases op <;> rfl

theorem readShort_accumulator (op : AluOp) : readShort extensions op.accumulatorOpcode = (do
      return .aluImm op extensions.width Gpr.rax (← Reader.word 32 4)) := by
  cases op <;> rfl

variable {low : Nat}

theorem readShort_movImm (hlow : low < 8) : readShort extensions (byte (0xB8 + low))
      = readMovImm extensions ⟨registerNumber extensions.rm low⟩ := by
  interval_cases low <;> rfl

theorem readShort_push (hlow : low < 8) :
    readShort extensions (byte (0x50 + low)) = pure (.push ⟨registerNumber extensions.rm low⟩) := by
  interval_cases low <;> rfl

theorem readShort_pop (hlow : low < 8) :
    readShort extensions (byte (0x58 + low)) = pure (.pop ⟨registerNumber extensions.rm low⟩) := by
  interval_cases low <;> rfl

theorem readShort_jcc (cond : Condition) : readShort extensions (byte (0x70 + cond.code)) = (do
      return .jcc cond (← Reader.signedByte 32)) := by
  cases cond <;> rfl

theorem isShort_jcc (cond : Condition) : isShort (byte (0x70 + cond.code)) = true := by
  cases cond <;> rfl

theorem reads_longJcc (lead : VectorLead) (cond : Condition) (off : BitVec 32) :
    Reads (readLong lead extensions) (byte (0x80 + cond.code) :: littleEndian off 4)
      (.jcc cond off) := by
  refine (Reads.next _).bind ?_
  have hread : Reads (do return Instr.jcc cond (← Reader.word 32 4) : Reader Instr)
      (littleEndian off 4) (.jcc cond off) :=
    (reads_word32 off).last (.pure _)
  cases cond <;> exact hread

theorem reads_longJmp (off : BitVec 32) :
    Reads readInstr (0xE9 :: littleEndian off 4) (false, .jmp off) := by
  exact @Reads.short _ _ false false false false 0xE9 rfl ((reads_word32 off).last (.pure _))

theorem reads_setcc (lead : VectorLead) (wide : Bool) (cond : Condition) (dst : Gpr) :
    Reads (readLong lead ⟨wide, false, isExtended dst.index⟩)
      (byte (0x90 + cond.code) :: operandBytes 0 (.reg dst.index)) (.setcc cond dst) := by
  refine (Reads.next _).bind ?_
  have hread : Reads (do
      let opnd ← readExtended ⟨wide, false, isExtended dst.index⟩
      return Instr.setcc cond opnd.2 : Reader Instr)
      (operandBytes 0 (.reg dst.index)) (.setcc cond dst) :=
    (reads_extended wide (by decide) dst).last (.pure _)
  cases cond <;> exact hread

end Readers

theorem reads_aluImm (op : AluOp) (width : Width) (dst : Gpr) (value : BitVec 32) :
    Reads readInstr (aluImmBytes op width dst value) (false, .aluImm op width dst value) := by
  have hwidth := width_isWide width false (isExtended dst.index)
  rw [aluImmBytes]
  split
  next hdst =>
    refine .short (by cases op <;> rfl) ?_
    rw [readShort_accumulator, width_isWide, hdst]
    exact (reads_word32 value).last (.pure _)
  next =>
    split
    next htest =>
      rw [extendedForm, append_assoc, append_assoc, htest]
      refine .short rfl ?_
      refine (reads_extended _ (by decide) dst).bind ((reads_word32 value).last ?_)
      rw [hwidth]
      exact .pure _
    next htest =>
      have hextn : op.extension < 8 := by cases op <;> decide
      have hop : AluOp.ofExtension? op.extension = some op := by
        cases op <;> first | rfl | exact absurd rfl htest
      split
      next hfits =>
        rw [extendedForm, append_assoc, append_assoc]
        refine .short rfl ?_
        refine (reads_extended _ hextn dst).bind ?_
        refine (Reads.lift hop).bind ((reads_signedByte hfits).last ?_)
        rw [hwidth]
        exact .pure _
      next =>
        rw [extendedForm, append_assoc, append_assoc]
        refine .short rfl ?_
        refine (reads_extended _ hextn dst).bind ?_
        refine (Reads.lift hop).bind ((reads_word32 value).last ?_)
        rw [hwidth]
        exact .pure _

theorem reads_opcodeForm {width : Width} {opcode : Nat} {reg : Gpr}
    (hopcode : ∀ low < 8, isShort (byte (opcode + low)) = true)
    (hread : Reads (readShort ⟨width.isWide, false, isExtended reg.index⟩
      (byte (opcode + lowBits reg.index))) tail instr) :
    Reads readInstr (opcodeForm width opcode reg ++ tail) (false, instr) := by
  rw [opcodeForm, append_assoc]
  exact .short (hopcode _ (lowBits_lt reg.index)) hread

theorem reads_integerBytes (hform : instr.vectorForm? = none) :
    Reads readInstr instr.integerBytes (false, instr) := by
  cases instr with
  | mov | load | store =>
    rw [integerBytes, integerForm, append_assoc]
    refine .short rfl ((reads_fields _ _ (lowBits_lt _) _).last ?_)
    rw [registerNumber_eq (Nat.mod_eq_of_lt (lowBits_lt _)), width_isWide]
    exact .pure _
  | movImm32 dst value =>
    refine reads_opcodeForm (by decide) ?_
    rw [readShort_movImm _ (lowBits_lt _), registerNumber_eq (Nat.mod_eq_of_lt (lowBits_lt _))]
    exact (reads_word32 value).last (.pure _)
  | movImm64 dst value =>
    refine reads_opcodeForm (by decide) ?_
    rw [readShort_movImm _ (lowBits_lt _), registerNumber_eq (Nat.mod_eq_of_lt (lowBits_lt _))]
    exact (reads_word64 value).last (.pure _)
  | alu op width dst src =>
    rw [integerBytes, integerForm, append_assoc]
    refine .short (by cases op <;> rfl) ?_
    rw [readShort_alu, width_isWide]
    exact (reads_pair _ src dst).last (.pure _)
  | aluImm op width dst value => exact reads_aluImm op width dst value
  | imul width dst src =>
    rw [integerBytes, integerForm, append_assoc]
    refine .long ((Reads.next _).bind ((reads_pair _ dst src).last ?_))
    rw [width_isWide]
    exact .pure _
  | shift op width dst =>
    have hextn : op.extension < 8 := by cases op <;> decide
    have hop : ShiftOp.ofExtension? op.extension = some op := by cases op <;> rfl
    rw [integerBytes, extendedForm, append_assoc]
    refine .short rfl ((reads_extended _ hextn dst).last ?_)
    refine (Reads.lift hop).last ?_
    rw [width_isWide]
    exact .pure _
  | unary op width reg =>
    have hextn : op.extension < 8 := by cases op <;> decide
    have hop : UnaryOp.ofExtension? op.extension = some op := by cases op <;> rfl
    have hnonzero : op.extension ≠ 0 := by cases op <;> decide
    rw [integerBytes, extendedForm, append_assoc]
    refine .short rfl ((reads_extended _ hextn reg).last ?_)
    dsimp only
    rw [if_neg hnonzero, width_isWide]
    exact (Reads.lift hop).last (.pure _)
  | signExtendAccumulator width =>
    rw [integerBytes]
    refine .short rfl ?_
    cases width <;> exact .pure _
  | setcc cond dst =>
    rw [integerBytes, extendedForm, append_assoc]
    exact .long (reads_setcc _ _ cond dst)
  | alu8 op dst src =>
    rw [integerBytes, integerForm, append_assoc]
    refine .short (by cases op <;> rfl) ?_
    rw [readShort_alu8]
    exact (reads_pair _ src dst).last (.pure _)
  | movzx8 dst src =>
    rw [integerBytes, integerForm, append_assoc]
    exact .long ((Reads.next _).bind ((reads_pair _ dst src).last (.pure _)))
  | movsxd dst src =>
    rw [integerBytes, integerForm, append_assoc]
    exact .short rfl ((reads_pair _ dst src).last (.pure _))
  | callReg reg =>
    rw [integerBytes, extendedForm, append_assoc]
    refine .short rfl ((reads_extended _ (by decide) reg).last ?_)
    exact (Reads.check rfl).last (.pure _)
  | push reg =>
    rw [integerBytes, ← append_nil (opcodeForm _ _ _)]
    refine reads_opcodeForm (by decide) ?_
    rw [readShort_push _ (lowBits_lt _), registerNumber_eq (Nat.mod_eq_of_lt (lowBits_lt _))]
    exact .pure _
  | pop reg =>
    rw [integerBytes, ← append_nil (opcodeForm _ _ _)]
    refine reads_opcodeForm (by decide) ?_
    rw [readShort_pop _ (lowBits_lt _), registerNumber_eq (Nat.mod_eq_of_lt (lowBits_lt _))]
    exact .pure _
  | ret =>
    exact @Reads.short _ [] false false false false 0xC3 rfl (.pure _)
  | jmp off =>
    rw [integerBytes]
    split
    next hfits =>
      exact @Reads.short _ _ false false false false 0xEB rfl
        ((reads_shortOffset hfits).last (.pure _))
    next => exact reads_longJmp off
  | jcc cond off =>
    rw [integerBytes]
    split
    next hfits =>
      refine @Reads.short _ _ false false false false _ (isShort_jcc cond) ?_
      rw [readShort_jcc]
      exact (reads_shortOffset hfits).last (.pure _)
    next => exact @Reads.long _ _ false false false false (reads_longJcc _ _ cond off)
  | _ => cases hform

/-! ## Vector instructions -/

theorem Reads.led (hread : Reads (readLong lead ⟨wide, reg, rm⟩) tail instr) :
    Reads readInstr (lead.bytes ++ (rexBytes forced wide reg rm ++ 0x0F :: tail))
      (false, instr) := by
  have hplain (value : UInt8) (rest : List UInt8) (hlead : ∀ bytes,
      readLead.run (value :: bytes) = some (lead, bytes)) :
      readPlain.run (value :: (rexBytes forced wide reg rm ++ 0x0F :: (tail ++ rest)))
        = some (instr, rest) := by
    rw [readPlain]
    simp only [StateT.run_bind, hlead, readExtensions_rexBytes (show isOpcode 0x0F = true from rfl),
      Option.bind_eq_bind, Option.bind_some]
    exact hread rest
  cases lead with
  | bare => exact .long hread
  | x66 | xF3 | xF2 =>
    intro rest
    rw [append_assoc, append_assoc]
    exact congrArg (Option.map _) (hplain _ rest fun _ => rfl)

/-- Whether no other instruction has this byte as its second opcode byte. -/
def isVectorOpcode (value : UInt8) : Bool :=
  decide (value ≠ 0xAF) && decide (value ≠ 0xB6) && decide (value.toNat / 16 ≠ 8)
    && decide (value.toNat / 16 ≠ 9)

theorem leadOf_eq {packed : Nat} (hpacked : packed % 4 = lead.code) : leadOf packed = lead := by
  rw [leadOf, hpacked]
  cases lead <;> rfl

section Packed

variable {lead : VectorLead} {wide reg rm : Bool} {extra : Nat} {opcode : UInt8}
  {tail : List UInt8} {instr : Instr} (hextra : extra ≤ 15)
include hextra

theorem toNat_packed : (byte (wide.toNat * 128 + extra * 8 + lead.code)).toNat
      = wide.toNat * 128 + extra * 8 + lead.code := by
  have hwide := wide.toNat_le
  have hcode : lead.code ≤ 3 := by cases lead <;> decide
  apply UInt8.toNat_ofNat_of_lt'
  change wide.toNat * 128 + extra * 8 + lead.code < 256
  omega

theorem reads_packed3 (hread : Reads (readVector lead ⟨wide, reg, rm⟩ opcode) tail instr) :
    Reads readPacked3 (byte ((!reg).toNat * 128 + 64 + (!rm).toNat * 32 + 1)
        :: byte (wide.toNat * 128 + extra * 8 + lead.code) :: opcode :: tail) instr := by
  have hcode : lead.code ≤ 3 := by cases lead <;> decide
  refine (Reads.next _).bind ((Reads.next _).bind ((Reads.next _).bind ?_))
  rw [toNat_packed hextra, leadOf_eq (show _ % 4 = lead.code by omega)]
  have hwide : decide ((wide.toNat * 128 + extra * 8 + lead.code) / 128 = 1) = wide := by
    cases wide <;> simp <;> omega
  rw [hwide]
  cases reg <;> cases rm <;> exact hread

theorem reads_packed2 (hread : Reads (readVector lead ⟨false, reg, false⟩ opcode) tail instr) :
    Reads readPacked2 (byte ((!reg).toNat * 128 + extra * 8 + lead.code) :: opcode :: tail)
      instr := by
  have hcode : lead.code ≤ 3 := by cases lead <;> decide
  refine (Reads.next _).bind ((Reads.next _).bind ?_)
  rw [toNat_packed hextra, leadOf_eq (show _ % 4 = lead.code by omega)]
  have hreg : decide (((!reg).toNat * 128 + extra * 8 + lead.code) / 128 = 0) = reg := by
    cases reg <;> simp <;> omega
  rw [hreg]
  exact hread

end Packed

section Vector

variable {instr : Instr} {form : VectorForm} (hform : instr.vectorForm? = some form)
include hform

/-- The form without its extra register says which instruction it is. -/
theorem ofVectorForm?_vectorForm? (reg rm : Bool) :
    ofVectorForm? form.lead ⟨form.wide, reg, rm⟩ form.opcode ⟨form.register, form.rm⟩
      = some instr := by
  cases instr with
  | fpLoad width => cases hform; cases width <;> rfl
  | fpStore width => cases hform; cases width <;> rfl
  | fpBinary op width => cases hform; cases op <;> cases width <;> rfl
  | fpCompare width => cases hform; cases width <;> rfl
  | movToXmm width => cases hform; cases width <;> rfl
  | cvtIntToFp int float => cases hform; cases int <;> cases float <;> rfl
  | cvtFpToInt int float => cases hform; cases int <;> cases float <;> rfl
  | cvtFpToFp target => cases hform; cases target <;> rfl
  | _ => cases hform <;> rfl

theorem reads_vector :
    Reads (readVector form.lead ⟨form.wide, isExtended form.register, isExtended form.rm.index⟩
      form.opcode) (operandBytes (lowBits form.register) form.rm) instr := by
  refine (reads_fields _ _ (lowBits_lt _) _).last (.lift ?_)
  rw [registerNumber_eq (Nat.mod_eq_of_lt (lowBits_lt _))]
  exact ofVectorForm?_vectorForm? hform _ _

/-- No opcode of a vector instruction is one of the other two-byte opcodes. -/
theorem readLong_vector (extensions : Extensions) (rest : List UInt8) :
    (readLong form.lead extensions).run (form.opcode :: rest)
      = (readVector form.lead extensions form.opcode).run rest := by
  have hopcode : isVectorOpcode form.opcode = true := by
    cases instr with
    | fpBinary op =>
      cases hform
      change isVectorOpcode op.opcode = true
      cases op <;> rfl
    | _ => cases hform <;> dsimp only <;> rfl
  simp only [isVectorOpcode, Bool.and_eq_true, decide_eq_true_eq] at hopcode
  change StateT.run (ite _ _ _ : Reader Instr) rest = _
  rw [if_neg hopcode.1.1.1, if_neg hopcode.1.1.2, if_neg hopcode.1.2, if_neg hopcode.2]

theorem reads_legacyBytes : Reads readInstr form.legacyBytes (false, instr) := by
  have hbytes : form.legacyBytes = form.lead.bytes
      ++ (rexBytes false form.wide (isExtended form.register) (isExtended form.rm.index)
        ++ 0x0F :: (form.opcode :: operandBytes (lowBits form.register) form.rm)) := by
    rw [VectorForm.legacyBytes, append_assoc, append_assoc]
    rfl
  rw [hbytes]
  apply Reads.led
  intro rest
  rw [cons_append, readLong_vector hform]
  exact reads_vector hform rest

theorem reads_extendedBytes : Reads readInstr form.extendedBytes (true, instr) := by
  have hread := reads_vector hform
  have hextra : 15 - (form.extra.map Fin.val).getD 0 ≤ 15 := Nat.sub_le ..
  intro rest
  rw [VectorForm.extendedBytes]
  split
  next => exact congrArg (Option.map _) (reads_packed3 hextra hread rest)
  next hshort =>
    rw [Bool.or_eq_true, not_or, Bool.not_eq_true, Bool.not_eq_true] at hshort
    rw [hshort.1, hshort.2] at hread
    exact congrArg (Option.map _) (reads_packed2 hextra hread rest)

end Vector

/-- Reading an encoded instruction finds it, and says whether the extended vector set was used
for it. -/
theorem reads_encode (avx : Bool) (instr : Instr) :
    Reads readInstr (instr.encode avx) (avx && instr.vectorForm?.isSome, instr) := by
  rw [Instr.encode]
  split
  next form hform =>
    rw [hform, VectorForm.bytes]
    cases avx with
    | false => exact reads_legacyBytes hform
    | true => exact reads_extendedBytes hform
  next hform =>
    rw [hform]
    cases avx <;> exact reads_integerBytes hform

theorem encode_ne_nil (avx : Bool) (instr : Instr) : instr.encode avx ≠ [] := by
  intro hempty
  have hread := reads_encode avx instr []
  rw [hempty] at hread
  cases hread

/-! ## Jumps that have been filled in -/

/-- The jump that a far jump becomes. -/
def farInstr (disp : BitVec 32) : Option Condition → Instr
  | none => .jmp disp
  | some cond => .jcc cond disp

theorem reads_farBytes (disp : BitVec 32) (cond : Option Condition) :
    Reads readInstr (Code.farBytes disp cond) (false, farInstr disp cond) := by
  cases cond with
  | none => exact reads_longJmp disp
  | some cond =>
    exact @Reads.long _ _ false false false false (reads_longJcc _ _ cond disp)

theorem reads_nearBytes (disp : BitVec 8) (cond : Condition) :
    Reads readInstr (Code.nearBytes disp cond) (false, .jcc cond (disp.signExtend 32)) := by
  refine @Reads.short _ _ false false false false _ (isShort_jcc cond) ?_
  rw [readShort_jcc]
  exact (reads_oneByte disp).last (.pure _)

end GraphJit.X64
