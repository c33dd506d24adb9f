import GraphJit.Proofs.FinishedCode

/-! # Items that differ in instructions only

Two lists of items match if they enter the same blocks, make the same far jumps and
open and close the same near jumps, in the same order, whatever instructions stand
in between; near jumps skip a few instructions only. An instruction has at most
fifteen bytes, so such near jumps are always short. Whether matching items are
accepted depends on what they have in common, and so does whether the code can be
finished, as long as it is short enough for far jumps.
-/

namespace GraphJit.X64

open List

/-! ## The length of an instruction -/

theorem length_littleEndian {width : Nat} (word : BitVec width) (count : Nat) :
    (littleEndian word count).length = count := by
  induction count generalizing word with
  | zero => rfl
  | succ count ih => rw [littleEndian, length_cons, ih]

theorem length_rexBytes_le (forced wide reg rm : Bool) :
    (rexBytes forced wide reg rm).length ≤ 1 := by
  rw [rexBytes]
  split
  · exact Nat.le_refl 1
  · exact Nat.zero_le 1

theorem length_indexByte_le (base : Gpr) : (indexByte base).length ≤ 1 := by
  rw [indexByte]
  split <;> decide

theorem length_operandBytes_le (register : Nat) (rm : RegMem) :
    (operandBytes register rm).length ≤ 6 := by
  cases rm with
  | reg index => exact Nat.le_add_left 1 5
  | mem addr =>
    have hindex := length_indexByte_le addr.base
    simp only [operandBytes]
    split
    · rw [length_cons]
      omega
    · split <;>
        (rw [cons_append, length_cons, length_append, length_littleEndian]
         omega)

theorem length_integerForm_le (forced : Bool) (width : Width) (opcode : List UInt8)
    (reg : Fin 16) (rm : RegMem) :
    (integerForm forced width opcode reg rm).length ≤ opcode.length + 7 := by
  have hrex := length_rexBytes_le forced width.isWide (isExtended reg) (isExtended rm.index)
  have hopnds := length_operandBytes_le (lowBits reg) rm
  rw [integerForm, length_append, length_append]
  omega

theorem length_extendedForm_le (forced : Bool) (width : Width) (opcode : List UInt8) (ext : Nat)
    (reg : Gpr) :
    (extendedForm forced width opcode ext reg).length ≤ opcode.length + 7 := by
  have hrex := length_rexBytes_le forced width.isWide false (isExtended reg.index)
  have hopnds := length_operandBytes_le ext (.reg reg.index)
  rw [extendedForm, length_append, length_append]
  omega

theorem length_opcodeForm_le (width : Width) (opcode : Nat) (reg : Gpr) :
    (opcodeForm width opcode reg).length ≤ 2 := by
  have hrex := length_rexBytes_le false width.isWide false (isExtended reg.index)
  rw [opcodeForm, length_append, length_singleton]
  omega

theorem length_aluImmBytes_le (op : AluOp) (width : Width) (dst : Gpr) (value : BitVec 32) :
    (aluImmBytes op width dst value).length ≤ 12 := by
  have hform (opcode : UInt8) := length_extendedForm_le false width [opcode] op.extension dst
  have hrex := length_rexBytes_le false width.isWide false false
  simp only [length_singleton] at hform
  rw [aluImmBytes]
  split
  · rw [length_append, length_cons, length_littleEndian]
    omega
  · split
    · rw [length_append, length_littleEndian]
      exact Nat.add_le_add_right (hform _) 4
    · split <;> rw [length_append, length_littleEndian]
      · exact Nat.le_trans (Nat.add_le_add_right (hform _) 1) (by decide)
      · exact Nat.add_le_add_right (hform _) 4

theorem length_integerBytes_le (instr : Instr) : instr.integerBytes.length ≤ 15 := by
  cases instr with
  | movImm32 dst value =>
    rw [Instr.integerBytes, length_append, length_littleEndian]
    exact Nat.le_trans (Nat.add_le_add_right (length_opcodeForm_le ..) 4) (by decide)
  | movImm64 dst value =>
    rw [Instr.integerBytes, length_append, length_littleEndian]
    exact Nat.le_trans (Nat.add_le_add_right (length_opcodeForm_le ..) 8) (by decide)
  | aluImm op width dst value =>
    exact Nat.le_trans (length_aluImmBytes_le ..) (by decide)
  | signExtendAccumulator width =>
    rw [Instr.integerBytes, length_append]
    exact Nat.le_trans (Nat.add_le_add_right (length_rexBytes_le ..) 1) (by decide)
  | push reg => exact Nat.le_trans (length_opcodeForm_le ..) (by decide)
  | pop reg => exact Nat.le_trans (length_opcodeForm_le ..) (by decide)
  | mov | load | store | alu | imul | alu8 | movzx8 | movsxd =>
    exact Nat.le_trans (length_integerForm_le ..) (by simp)
  | shift | unary | setcc | callReg =>
    exact Nat.le_trans (length_extendedForm_le ..) (by simp)
  | jmp off =>
    rw [Instr.integerBytes]
    split
    · simp [shortForm]
    · simp [length_littleEndian]
  | jcc cond off =>
    rw [Instr.integerBytes]
    split
    · simp [shortForm]
    · simp [length_littleEndian]
  | _ => simp [Instr.integerBytes]

theorem length_vectorForm_le (avx : Bool) (form : VectorForm) : (form.bytes avx).length ≤ 15 := by
  have hopnds := length_operandBytes_le (lowBits form.register) form.rm
  have hrex := length_rexBytes_le false form.wide (isExtended form.register)
    (isExtended form.rm.index)
  have hlead : form.lead.bytes.length ≤ 1 := by cases form.lead <;> decide
  rw [VectorForm.bytes]
  split
  · simp only [VectorForm.extendedBytes]
    split <;> (simp only [length_cons]; omega)
  · simp only [VectorForm.legacyBytes, length_append, length_cons, length_nil]
    omega

theorem length_encode_le (avx : Bool) (instr : Instr) : (instr.encode avx).length ≤ 15 := by
  rw [Instr.encode]
  split
  · exact length_vectorForm_le avx _
  · exact length_integerBytes_le instr

end GraphJit.X64

namespace GraphJit.Code

open X64

/-! ## Matching items -/

/-- Near jumps that are matched skip at most this many instructions. -/
def mostSkipped : Nat := 8

inductive Matching : List Item → List Item → Prop
  | nil : Matching [] []
  | left (instr : Instr) {xs ys : List Item} (rest : Matching xs ys) :
      Matching (.instr instr :: xs) ys
  | right (instr : Instr) {xs ys : List Item} (rest : Matching xs ys) :
      Matching xs (.instr instr :: ys)
  | enter (block : Nat) {xs ys : List Item} (rest : Matching xs ys) :
      Matching (.enter block :: xs) (.enter block :: ys)
  | jump (cond : Option Condition) (target : Nat) {xs ys : List Item}
      (rest : Matching xs ys) : Matching (.jump cond target :: xs) (.jump cond target :: ys)
  | skip (cond : Condition) {as bs : List Instr} {xs ys : List Item}
      (has : as.length ≤ mostSkipped) (hbs : bs.length ≤ mostSkipped) (rest : Matching xs ys) :
      Matching (.openNear cond :: (as.map .instr ++ .closeNear :: xs))
        (.openNear cond :: (bs.map .instr ++ .closeNear :: ys))

namespace Matching

variable {xs ys xs' ys' : List Item}

theorem symm (h : Matching xs ys) : Matching ys xs := by
  induction h with
  | nil => exact .nil
  | left instr _ ih => exact .right instr ih
  | right instr _ ih => exact .left instr ih
  | enter block _ ih => exact .enter block ih
  | jump cond target _ ih => exact .jump cond target ih
  | skip cond has hbs _ ih => exact .skip cond hbs has ih

theorem append (h : Matching xs ys) (h' : Matching xs' ys') : Matching (xs ++ xs') (ys ++ ys') := by
  induction h with
  | nil => exact h'
  | left instr _ ih => exact .left instr ih
  | right instr _ ih => exact .right instr ih
  | enter block _ ih => exact .enter block ih
  | jump cond target _ ih => exact .jump cond target ih
  | skip cond has hbs _ ih =>
    simp only [List.cons_append, List.append_assoc]
    exact .skip cond has hbs ih

theorem instrs (as bs : List Instr) : Matching (as.map .instr) (bs.map .instr) := by
  induction as with
  | nil =>
    induction bs with
    | nil => exact .nil
    | cons b bs ih => exact .right b ih
  | cons a as ih => exact .left a ih

/-- Every item of a matched list has at most fifteen bytes. -/
theorem emitted_le (h : Matching xs ys) (avx : Bool) :
    ∀ item ∈ xs, (item.emitted avx).length ≤ 15 := by
  have hinstr (instr : Instr) : (Item.emitted avx (.instr instr)).length ≤ 15 :=
    length_encode_le avx instr
  induction h with
  | nil => exact List.forall_mem_nil _
  | left instr _ ih => exact List.forall_mem_cons.mpr ⟨hinstr instr, ih⟩
  | right instr _ ih => exact ih
  | enter block _ ih => exact List.forall_mem_cons.mpr ⟨Nat.zero_le _, ih⟩
  | jump cond target _ ih =>
    refine List.forall_mem_cons.mpr ⟨?_, ih⟩
    cases cond <;> simp [Item.emitted, placeholderSize]
  | skip cond has hbs _ ih =>
    simp only [List.forall_mem_cons, List.forall_mem_append, List.forall_mem_map]
    have hopen : (Item.emitted avx (.openNear cond)).length = 2 := rfl
    exact ⟨by omega, fun instr _ => hinstr instr, Nat.zero_le _, ih⟩

theorem length_code_le (h : Matching xs ys) (avx : Bool) :
    (xs.flatMap (Item.emitted avx)).length ≤ 15 * xs.length := by
  have hitems := h.emitted_le avx
  clear h
  induction xs with
  | nil => exact Nat.le_refl 0
  | cons item xs ih =>
    obtain ⟨hfirst, hrest⟩ := List.forall_mem_cons.mp hitems
    have hlater := ih hrest
    rw [List.flatMap_cons, List.length_append, List.length_cons]
    omega

end Matching

/-! ## Emitting matching items -/

namespace Stream

variable {stream : Stream}

theorem emit_instr (stream : Stream) (instr : Instr) (items : List Item) :
    stream.emit (.instr instr :: items) = (stream.append (instr.encode stream.avx)).emit items :=
  rfl

theorem position_append (stream : Stream) (bytes : List UInt8) :
    (stream.append bytes).position = stream.position + bytes.length := by
  simp only [position, append, ← Array.length_toList, Array.toList_appendList, List.length_append]

theorem exists_emit_instrs (stream : Stream) (instrs : List Instr) :
    ∃ bytes : List UInt8, bytes.length ≤ 15 * instrs.length ∧ ∀ items,
      stream.emit (instrs.map .instr ++ items) = (stream.append bytes).emit items := by
  induction instrs generalizing stream with
  | nil =>
    refine ⟨[], Nat.le_refl 0, fun items => ?_⟩
    simp [append]
  | cons instr instrs ih =>
    obtain ⟨bytes, hlength, hemit⟩ := ih (stream.append (instr.encode stream.avx))
    refine ⟨instr.encode stream.avx ++ bytes, ?_, fun items => ?_⟩
    · have hinstr := length_encode_le stream.avx instr
      rw [List.length_append, List.length_cons]
      omega
    · rw [List.map_cons, List.cons_append, emit_instr, hemit, append_append]

/-- A near jump over a few instructions is closed in reach. -/
theorem exists_nearPatch (near : NearJump) {distance : Nat} (hdistance : distance ≤ 127) :
    ∃ patch, nearPatch near (near.position + nearSize + distance) = .ok patch := by
  have hoff : ((near.position + nearSize + distance : Nat) : Int)
      - ((near.position + nearSize : Nat) : Int) = distance := by omega
  have hfits : fitsByte (distance : Int) = true := by
    have hbyte : twoPow (8 - 1) = 128 := rfl
    rw [fitsByte, fitsSigned, hbyte, decide_eq_true_iff]
    omega
  have hlength : jccLength (distance : Int) = nearSize := by
    rw [jccLength, if_pos hfits]
    rfl
  refine ⟨⟨near.position, shortForm (0x70 + near.condition.code) distance⟩, ?_⟩
  rw [nearPatch]
  simp only [hoff, shortestJcc, if_pos hfits, hlength]
  exact if_neg (by simp [shortForm, nearSize, jccLength, fitsByte, fitsSigned, twoPow])

theorem exists_emit_skip (hnear : stream.near = none) (cond : Condition) {instrs : List Instr}
    (hinstrs : instrs.length ≤ mostSkipped) :
    ∃ next : Stream, next.near = none ∧ next.blocks = stream.blocks ∧ next.jumps = stream.jumps ∧
      ∀ items, stream.emit (.openNear cond :: (instrs.map .instr ++ .closeNear :: items))
        = next.emit items := by
  let near : NearJump := { position := stream.position, condition := cond }
  let opened : Stream := { stream with near := some near }.pad nearSize
  obtain ⟨bytes, hlength, hemit⟩ := exists_emit_instrs opened instrs
  -- eight instructions of fifteen bytes are within reach of a short jump
  have hshort : bytes.length ≤ 127 := by
    have hmost : mostSkipped = 8 := rfl
    omega
  have hpos : (opened.append bytes).position
      = near.position + nearSize + bytes.length := by
    rw [position_append]
    change (append _ _).position + _ = _
    rw [position_append, List.length_replicate]
    rfl
  obtain ⟨patch, hpatch⟩ := exists_nearPatch near hshort
  refine ⟨{ opened.append bytes with near := none, patches := opened.patches.push patch },
    rfl, rfl, rfl, fun items => ?_⟩
  have hopen : stream.step (.openNear cond) = (opened, .ok ()) := by
    simp only [step, openNear, hnear]
    rfl
  have hclose : (opened.append bytes).step .closeNear
      = ({ opened.append bytes with near := none, patches := opened.patches.push patch },
        .ok ()) := by
    have hpend : (opened.append bytes).near = some near := rfl
    simp only [step, closeNear, hpend, hpos, hpatch]
    rfl
  rw [emit, hopen]
  simp only
  rw [hemit, emit, hclose]

end Stream

/-- Two streams between near jumps that have entered the same blocks and recorded jumps to the
same blocks. -/
structure Twin (first second : Stream) : Prop where
  firstClosed : first.near = none
  secondClosed : second.near = none
  entered : first.blocks.map Option.isSome = second.blocks.map Option.isSome
  targets : first.jumps.map (·.target) = second.jumps.map (·.target)

namespace Twin

variable {first second : Stream}

section

variable (h : Twin first second)
include h

theorem append (bytes others : List UInt8) : Twin (first.append bytes) (second.append others) :=
  ⟨h.firstClosed, h.secondClosed, h.entered, h.targets⟩

theorem isSome_getElem? (block : Nat) :
    first.blocks[block]?.map Option.isSome = second.blocks[block]?.map Option.isSome := by
  rw [← Array.getElem?_map, ← Array.getElem?_map, h.entered]

theorem exists_enter {block : Nat} {next : Stream} (henter : first.enter block = .ok next) :
    ∃ other, second.enter block = .ok other ∧ Twin next other := by
  have hsame := h.isSome_getElem? block
  rw [Stream.enter] at henter
  split at henter
  next => cases henter
  next => cases henter
  next hfree =>
    cases henter
    rw [hfree] at hsame
    have hother : second.blocks[block]? = some none := by
      rcases hblock : second.blocks[block]? with - | (- | position)
      · simp [hblock] at hsame
      · rfl
      · simp [hblock] at hsame
    refine ⟨{ second with blocks := second.blocks.setIfInBounds block (some second.position) },
      ?_, h.firstClosed, h.secondClosed, ?_, h.targets⟩
    · rw [Stream.enter, hother]
    · simp only [Array.map_setIfInBounds, h.entered]
      rfl

/-- What is accepted after one of two twins is accepted after the other. -/
theorem exists_emit {xs ys : List Item} (hmatch : Matching xs ys) {last : Stream}
    (hemit : first.emit xs = .ok last) : ∃ other, second.emit ys = .ok other ∧ Twin last other := by
  induction hmatch generalizing first second with
  | nil =>
    cases hemit
    exact ⟨second, rfl, h⟩
  | left instr _ ih =>
    rw [Stream.emit_instr] at hemit
    exact ih (h.append _ []) hemit
  | right instr _ ih =>
    rw [Stream.emit_instr]
    exact ih (h.append [] _) hemit
  | enter block _ ih =>
    rw [Stream.emit] at hemit
    split at hemit
    next next hstep =>
      obtain ⟨other, henter, htwin⟩ := h.exists_enter (Stream.attempt_eq_ok hstep)
      rw [Stream.emit, Stream.step, henter]
      exact ih htwin hemit
    next => cases hemit
  | jump cond target _ ih =>
    have htwin : Twin (first.jump cond target) (second.jump cond target) := by
      refine ⟨h.firstClosed, h.secondClosed, h.entered, ?_⟩
      simp only [Stream.jump, Stream.pad, Stream.append, Array.map_push, h.targets]
    exact ih htwin hemit
  | skip cond has hbs _ ih =>
    obtain ⟨next, hnear, hblocks, hjumps, hnext⟩ :=
      Stream.exists_emit_skip h.firstClosed cond has
    obtain ⟨other, hotherNear, hotherBlocks, hotherJumps, hother⟩ :=
      Stream.exists_emit_skip h.secondClosed cond hbs
    rw [hnext] at hemit
    rw [hother]
    refine ih ⟨hnear, hotherNear, ?_, ?_⟩ hemit
    · rw [hblocks, hotherBlocks, h.entered]
    · rw [hjumps, hotherJumps, h.targets]

/-- Far jumps of twins go to blocks that were entered, or those of neither do. -/
theorem exists_landing
    (hfirst : ∀ jump ∈ first.jumps.toList, ∃ p, first.blocks[jump.target]? = some (some p)) :
    ∀ jump ∈ second.jumps.toList, ∃ p, second.blocks[jump.target]? = some (some p) := by
  intro jump hjump
  have htarget : jump.target ∈ (first.jumps.map (·.target)).toList := by
    rw [h.targets, Array.toList_map]
    exact List.mem_map_of_mem hjump
  rw [Array.toList_map, List.mem_map] at htarget
  obtain ⟨twin, htwin, hsame⟩ := htarget
  obtain ⟨p, hp⟩ := hfirst twin htwin
  have hent := h.isSome_getElem? twin.target
  rw [hp, hsame] at hent
  rcases hblock : second.blocks[jump.target]? with - | (- | position)
  · simp [hblock] at hent
  · simp [hblock] at hent
  · exact ⟨position, rfl⟩

end

end Twin

/-- Whether matching items make finished code depends only on what they have in common. -/
theorem exists_finished {avx : Bool} {count : Nat} {xs ys : List Item} (hmatch : Matching xs ys)
    (hshort : 15 * ys.length < twoPow 31) {stream : Stream} {out : List UInt8}
    (hemit : (Stream.new avx count).emit xs = .ok stream) (hfinish : stream.finish = .ok out) :
    ∃ other finished, (Stream.new avx count).emit ys = .ok other ∧ other.finish = .ok finished := by
  have hnew : Twin (Stream.new avx count) (Stream.new avx count) := ⟨rfl, rfl, rfl, rfl⟩
  -- the second stream has the same blocks and jumps, only at other positions
  obtain ⟨other, hother, htwin⟩ := hnew.exists_emit hmatch hemit
  have hlaid := laid_of_emit hother
  have hcode : other.position ≤ 15 * ys.length := by
    have hbytes := hmatch.symm.length_code_le avx
    rwa [← hlaid.code, Array.length_toList] at hbytes
  obtain ⟨finished, hfin⟩ := exists_finish hlaid (ordered_of_emit hother)
    htwin.secondClosed (hcode.trans_lt hshort)
    (htwin.exists_landing (finishable_of_finish hfinish).2)
  exact ⟨other, finished, hother, hfin⟩

end GraphJit.Code
