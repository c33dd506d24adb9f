import GraphJit.Proofs.LoweredShape
import Mathlib.Algebra.GroupWithZero.Nat

/-! # Lowered operations

Every operation, and so every block and function, is lowered in the same way for
two targets that share everything but homes and frame. `Operation.accesses` lists
the classes in which the operands of an operation are accessed.
-/

namespace GraphJit

open List

/-! ## Classes and weights -/

/-- Operands accessed in one class. -/
def accessedAs (isFloat : Bool) (operands : List Operand) : List (Operand × Bool) :=
  operands.map (·, isFloat)

/-- Operands accessed in the class of the type that they are accessed at. -/
def accessedAsTyped (operands : List Operand) : List (Operand × Bool) :=
  operands.map fun opnd => (opnd, opnd.type.isFloat)

/-- The operands of an operation, each with whether it is accessed as a float. -/
def Operation.accesses (op : Operation) : List (Operand × Bool) := let dest := op.destination.toList
  let writesFloat := op.destination.any (·.type.isFloat)
  let readsFloat := op.sources.head?.any (·.type.isFloat)
  match op.instruction with
  | .add | .sub | .mul | .and | .or | .xor | .div | .divu | .neg =>
    accessedAs writesFloat op.operands
  | .shl | .sar | .shr | .not | .zeroExtend32 | .signExtend32 => accessedAs false op.operands
  | .copy | .toFloat | .loadArgument _ | .ret => accessedAsTyped op.operands
  | .compare _ => accessedAs false dest ++ accessedAs readsFloat op.sources
  | .select =>
    accessedAs false (op.sources.take 1)
      ++ accessedAs writesFloat (dest ++ op.sources.drop 1)
  | .toInteger => accessedAs false dest ++ accessedAs true op.sources
  | .load => accessedAsTyped dest ++ accessedAs false op.sources
  | .store | .call =>
    accessedAs false (op.sources.take 1) ++ accessedAsTyped (dest ++ op.sources.drop 1)
  | .branchIf _ => accessedAs readsFloat op.sources
  | .branch | .phi => []

/-- The size of an operation, which bounds the code that it is lowered to. -/
def Operation.weight (op : Operation) : Nat := op.sources.length + 1

def Block.weight (block : Block) : Nat := (block.operations.map Operation.weight).sum + 1

/-- The number of blocks, operations and sources of a graph. -/
def Graph.weight (graph : Graph) : Nat := (graph.blocks.toList.map Block.weight).sum

namespace Lowering

open X64 Code
open HostRegister (rax rcx rdx rsp xmm0 xmm1)

/-- Two targets with everything in common but homes and frame, and operands of the same types. -/
structure Alongside (p : Pairing) : Prop where
  convention : p.first.convention = p.second.convention
  fastFloat : p.first.fastFloat = p.second.fastFloat
  arguments : p.first.arguments = p.second.arguments
  type : ∀ opnd, (p.image opnd).type = opnd.type

/-- The operands of an operation fit, and its outgoing arguments are where some may be. -/
structure Pairing.Covers (p : Pairing) (op : Operation) : Prop where
  fits : ∀ access ∈ op.accesses, p.fits access.1 access.2
  outgoing : op.instruction = .call → ∀ off, Place.stack off ∈
    p.first.convention.places ((op.sources.drop 1).map Operand.type) → p.outgoing off

variable {op : Operation} {index : Nat} {dest : Operand} {types : List ValueType}
  {name : HostRegister}

theorem of_destinationOf (hdest : destinationOf op = .ok dest) : op.destination = some dest := by
  rw [destinationOf] at hdest
  split at hdest
  next found hfound =>
    cases hdest
    exact hfound
  next => cases hdest

section

variable {src : Operand} (hsrc : sourceOf op index = .ok src)
include hsrc

theorem of_sourceOf : op.sources[index]? = some src := by
  rw [sourceOf] at hsrc
  split at hsrc
  next found hfound =>
    cases hsrc
    exact hfound
  next => cases hsrc

theorem mem_of_sourceOf : src ∈ op.sources :=
  mem_of_getElem? (of_sourceOf hsrc)

theorem source_mem_operands : src ∈ op.operands :=
  mem_append_right _ (mem_of_sourceOf hsrc)

end

/-- The sources behind the first one. -/
theorem mem_drop_of_sourceOf {src : Operand} (hsrc : sourceOf op (index + 1) = .ok src) :
    src ∈ op.sources.drop 1 := by
  refine mem_of_getElem? (i := index) ?_
  rw [getElem?_drop, Nat.add_comm]
  exact of_sourceOf hsrc

theorem mem_take_of_sourceOf {src : Operand} (hsrc : sourceOf op 0 = .ok src) :
    src ∈ op.sources.take 1 := by
  refine mem_of_getElem? (i := 0) ?_
  rw [getElem?_take_of_lt Nat.one_pos]
  exact of_sourceOf hsrc

theorem dest_mem_operands (hdest : destinationOf op = .ok dest) : dest ∈ op.operands := by
  rw [Operation.operands, of_destinationOf hdest]
  exact mem_append_left _ (mem_singleton_self dest)

theorem register_mem_of_placeByClass {gp vec : List HostRegister} {stack : Nat}
    (hplace : Place.register name ∈ Convention.placeByClass gp vec stack types) :
    name ∈ gp ++ vec := by
  fun_induction Convention.placeByClass gp vec stack types with
  | case1 => cases hplace
  | case2 _ _ _ _ _ _ _ ih | case4 _ _ _ _ _ _ _ ih => grind
  | case3 _ _ _ _ _ ih | case5 _ _ _ _ _ ih => exact ih ((mem_cons.mp hplace).resolve_left (by simp))

theorem register_mem_of_places {conv : Convention}
    (hplace : Place.register name ∈ conv.places types) :
    name ∈ conv.gpArguments ++ conv.vecArguments := by
  cases conv with
  | sysv => exact register_mem_of_placeByClass hplace
  | win64 =>
    obtain ⟨⟨type, pos⟩, -, hplaced⟩ := mem_map.mp hplace
    simp only at hplaced
    split at hplaced
    next reg hreg =>
      cases hplaced
      have hmem := mem_of_getElem? hreg
      rw [mem_append]
      split at hmem
      · exact .inl hmem
      · exact .inr hmem
    next => cases hplaced

section

variable {p : Pairing} {grade : Grade} {n : Nat} {op : Operation} {dest a b : Operand}

theorem Similar.bind {α : Type} {first : Outcome α} {next other : α → Emission}
    (hfirst : Supported first)
    (hnext : ∀ value, first = .ok value → Similar p grade n (next value) (other value)) :
    Similar p grade n (first >>= next) (first >>= other) := by
  cases first with
  | ok value => exact hnext value rfl
  | error failure =>
    obtain ⟨cause, rfl⟩ := hfirst failure rfl
    exact .unsupported cause cause

variable {next other : Operand → Emission} {args : List Operand}

theorem Similar.destination (hnext : ∀ dest, destinationOf op = .ok dest →
      Similar p grade n (next dest) (other (p.image dest))) :
    Similar p grade n (destinationOf op >>= next) (destinationOf (op.over p.image) >>= other) := by
  rw [destinationOf, destinationOf, Operation.over]
  cases hdest : op.destination with
  | none => exact .unsupported _ _
  | some dest => exact hnext dest (by rw [destinationOf, hdest])

theorem Similar.source (index : Nat) (hnext : ∀ src, sourceOf op index = .ok src →
      Similar p grade n (next src) (other (p.image src))) :
    Similar p grade n (sourceOf op index >>= next)
      (sourceOf (op.over p.image) index >>= other) := by
  rw [sourceOf, sourceOf, Operation.over, getElem?_map]
  cases hsrc : op.sources[index]? with
  | none => exact .unsupported _ _
  | some src => exact hnext src (by rw [sourceOf, hsrc])

theorem Similar.ite {cond : Prop} [Decidable cond] {x y x' y' : Emission}
    (hthen : Similar p grade n x y) (helse : Similar p grade n x' y') :
    Similar p grade n (if cond then x else x') (if cond then y else y') := by
  split
  · exact hthen
  · exact helse

theorem Similar.choose {flag : Bool} {x y x' y' : Emission}
    (hthen : flag = true → Similar p grade n x y) (helse : flag = false → Similar p grade n x' y') :
    Similar p grade n (if flag then x else x') (if flag then y else y') := by
  cases flag with
  | true => exact hthen rfl
  | false => exact helse rfl

/-- A jump, or nothing where control goes on by itself. -/
theorem Similar.goTo (block : Block) (target : Nat) :
    Similar p .any 1 (.ok (goTo block target)) (.ok (goTo block target)) := by
  rw [Lowering.goTo]
  split
  · exact .weaken (Nat.zero_le 1) .nil
  · exact .jump none target

variable (hside : Alongside p)
include hside

/-! ## Arithmetic -/

theorem similar_floatBinary (fp : FloatOp) (hdest : p.fits dest true) (ha : p.fits a true)
    (hb : p.fits b true) : Similar p grade 6 (p.first.floatBinary fp dest a b)
      (p.second.floatBinary fp (p.image dest) (p.image a) (p.image b)) := by
  rw [Target.floatBinary, Target.floatBinary, hside.type]
  exact .cons (.fetch ha .xmm0) (.cons (.fetch hb .xmm1) (.cons (.instr rfl rfl)
    (.cons (.keep hdest) .nil)))

omit hside in
theorem similar_integerOp (instr : Instruction) (width : Width) :
    Similar p grade 1 (emit (integerOp instr width)) (emit (integerOp instr width)) := by
  cases instr <;> exact .instr rfl rfl

theorem similar_binary
    (hfits : ∀ opnd ∈ op.operands, p.fits opnd (op.destination.any (·.type.isFloat))) :
    Similar p grade 6 (p.first.binary op) (p.second.binary (op.over p.image)) := by
  refine .destination fun dest hdest => .source 0 fun a ha => .source 1 fun b hb => ?_
  rw [of_destinationOf hdest, Option.any_some] at hfits
  have hdest := hfits dest (dest_mem_operands hdest)
  have ha := hfits a (source_mem_operands ha)
  have hb := hfits b (source_mem_operands hb)
  simp only [hside.type, Operation.over]
  refine .choose (fun hfloat => ?_) fun hfloat => ?_ <;> rw [hfloat] at hdest ha hb
  · split
    · exact similar_floatBinary hside _ hdest ha hb
    · exact .unsupported _ _
  · exact .cons (.fetch ha .rax) (.cons (.fetch hb .rcx)
      (.cons (similar_integerOp _ _) (.cons (.keep hdest) .nil)))

section Guards

omit hside

variable (hgrade : grade ≠ .instrs) (width : Width)
include hgrade

theorem similar_negativeGuard : Similar p grade 5 (negativeGuard width) (negativeGuard width) :=
  .cons (.instr rfl rfl)
    (.skip hgrade .notEqual (.cons (.instr rfl rfl) (.cons (.instr rfl rfl) .nil)) (by decide) .nil)

theorem similar_zeroGuard : Similar p grade 5 (zeroGuard width) (zeroGuard width) :=
  .cons (.instr rfl rfl)
    (.skip hgrade .notEqual (.cons (.instr rfl rfl) (.cons (.instr rfl rfl) .nil)) (by decide) .nil)

end Guards

theorem similar_divide (hgrade : grade ≠ .instrs) (signed : Bool)
    (hfits : ∀ opnd ∈ op.operands, p.fits opnd (op.destination.any (·.type.isFloat))) :
    Similar p grade 17 (p.first.divide op signed) (p.second.divide (op.over p.image) signed) := by
  refine .destination fun dest hdest => .source 0 fun a ha => .source 1 fun b hb => ?_
  rw [of_destinationOf hdest, Option.any_some] at hfits
  have hdest := hfits dest (dest_mem_operands hdest)
  have ha := hfits a (source_mem_operands ha)
  have hb := hfits b (source_mem_operands hb)
  simp only [hside.type]
  refine .choose (fun hfloat => ?_) fun hfloat => ?_ <;> rw [hfloat] at hdest ha hb
  · exact .ite (.weaken (by decide) (similar_floatBinary hside _ hdest ha hb)) (.unsupported _ _)
  · have hguard (width : Width) : Similar p grade 5 (if signed then negativeGuard width else .ok [])
        (if signed then negativeGuard width else .ok []) :=
      .ite (similar_negativeGuard hgrade width) (.weaken (Nat.zero_le 5) .nil)
    refine .cons (.fetch ha .rax) (.cons (.fetch hb .rcx) (.cons (hguard _)
      (.cons (similar_zeroGuard hgrade _) (.cons (m := 2) ?_ (.cons (.keep hdest) .nil)))))
    exact .ite (.cons (.instr rfl rfl) (.cons (.instr rfl rfl) .nil))
      (.cons (.instr rfl rfl) (.cons (.instr rfl rfl) .nil))

theorem similar_shift (hfits : ∀ opnd ∈ op.operands, p.fits opnd false) :
    Similar p grade 6 (p.first.shift op) (p.second.shift (op.over p.image)) := by
  refine .destination fun dest hdest => .source 0 fun a ha => .source 1 fun b hb => ?_
  simp only [hside.type, Operation.over]
  refine .ite (.unsupported _ _) ?_
  exact .cons (.fetch (hfits a (source_mem_operands ha)) .rax)
    (.cons (.fetch (hfits b (source_mem_operands hb)) .rcx) (.cons (.instr rfl rfl)
      (.cons (.keep (hfits dest (dest_mem_operands hdest))) .nil)))

theorem similar_complement (hfits : ∀ opnd ∈ op.operands, p.fits opnd false) :
    Similar p grade 4 (p.first.complement op) (p.second.complement (op.over p.image)) := by
  refine .destination fun dest hdest => .source 0 fun src hsrc => ?_
  simp only [hside.type]
  refine .ite (.unsupported _ _) ?_
  exact .cons (.fetch (hfits src (source_mem_operands hsrc)) .rax) (.cons (.instr rfl rfl)
    (.cons (.keep (hfits dest (dest_mem_operands hdest))) .nil))

omit hside in
theorem similar_movImm (width : Width) (value : BitVec 64) :
    Similar p grade 1 (emit (Assembler.movImm width rax value))
      (emit (Assembler.movImm width rax value)) := by
  cases width <;> exact .instr rfl rfl

theorem similar_negate
    (hfits : ∀ opnd ∈ op.operands, p.fits opnd (op.destination.any (·.type.isFloat))) :
    Similar p grade 6 (p.first.negate op) (p.second.negate (op.over p.image)) := by
  refine .destination fun dest hdest => .source 0 fun src hsrc => ?_
  rw [of_destinationOf hdest, Option.any_some] at hfits
  have hdest := hfits dest (dest_mem_operands hdest)
  have hsrc := hfits src (source_mem_operands hsrc)
  simp only [hside.type]
  refine .choose (fun hfloat => ?_) fun hfloat => ?_ <;> rw [hfloat] at hdest hsrc
  · exact .cons (.fetch hsrc .xmm0) (.cons (similar_movImm _ _) (.cons (.instr rfl rfl)
      (.cons (.instr rfl rfl) (.cons (.keep hdest) .nil))))
  · exact .weaken (by decide) (.cons (.fetch hsrc .rax) (.cons (.instr rfl rfl)
      (.cons (.keep hdest) .nil)))

theorem similar_copy (hfits : ∀ opnd ∈ op.operands, p.fits opnd opnd.type.isFloat) :
    Similar p grade 3 (p.first.copy op) (p.second.copy (op.over p.image)) := by
  refine .destination fun dest hdest => .source 0 fun src hsrc => ?_
  have hdest := hfits dest (dest_mem_operands hdest)
  have hsrc := hfits src (source_mem_operands hsrc)
  simp only [hside.type]
  split
  next hsame => exact .cons (.fetch (hsame ▸ hsrc) (.scratchOf _)) (.cons (.keep hdest) .nil)
  next => exact .unsupported _ _

/-! ## Comparisons and conversions -/

theorem similar_unorderedFix (cmp : Comparison) :
    Similar p grade 2 (p.first.unorderedFix cmp) (p.second.unorderedFix cmp) := by
  rw [Target.unorderedFix, Target.unorderedFix, hside.fastFloat]
  refine .ite (.weaken (Nat.zero_le 2) .nil) (.ite ?_ ?_)
  · exact .cons (.instr rfl rfl) (.cons (.instr rfl rfl) .nil)
  · exact .cons (.instr rfl rfl) (.cons (.instr rfl rfl) .nil)

theorem similar_floatCompare (cmp : Comparison) (ha : p.fits a true) (hb : p.fits b true) :
    Similar p grade 9 (p.first.floatCompare cmp a b)
      (p.second.floatCompare cmp (p.image a) (p.image b)) := by
  rw [Target.floatCompare, Target.floatCompare, hside.type]
  exact .cons (.fetch ha .xmm0) (.cons (.fetch hb .xmm1) (.cons (.instr rfl rfl)
    (.cons (.instr rfl rfl) (.cons (similar_unorderedFix hside cmp)
      (.cons (.instr rfl rfl) .nil)))))

theorem similar_integerCompare (ha : p.fits a false) (hb : p.fits b false) :
    Similar p grade 5 (p.first.integerCompare a b)
      (p.second.integerCompare (p.image a) (p.image b)) := by
  rw [Target.integerCompare, Target.integerCompare, hside.type]
  exact .cons (.fetch ha .rax) (.cons (.fetch hb .rcx) (.cons (.instr rfl rfl) .nil))

omit hside in
theorem readsFloat_eq (ha : sourceOf op 0 = .ok a) :
    op.sources.head?.any (·.type.isFloat) = a.type.isFloat := by
  rw [head?_eq_getElem?, of_sourceOf ha, Option.any_some]

theorem similar_compare (cmp : Comparison) (hwritten : ∀ dest ∈ op.destination, p.fits dest false)
    (hread : ∀ src ∈ op.sources, p.fits src (op.sources.head?.any (·.type.isFloat))) :
    Similar p grade 10 (p.first.compare op cmp) (p.second.compare (op.over p.image) cmp) := by
  refine .destination fun dest hdest => .source 0 fun a ha => .source 1 fun b hb => ?_
  rw [readsFloat_eq ha] at hread
  have hdest := hwritten dest (of_destinationOf hdest)
  have ha := hread a (mem_of_sourceOf ha)
  have hb := hread b (mem_of_sourceOf hb)
  simp only [hside.type]
  refine .ite (.unsupported _ _) ?_
  refine .choose (fun hfloat => ?_) fun hfloat => ?_ <;> rw [hfloat] at ha hb
  · exact .cons (similar_floatCompare hside cmp ha hb) (.cons (.keep hdest) .nil)
  · exact .weaken (by decide) (.cons (similar_integerCompare hside ha hb) (.cons (.instr rfl rfl)
      (.cons (.instr rfl rfl) (.cons (.keep hdest) .nil))))

theorem similar_select (hgrade : grade ≠ .instrs)
    (hcond : ∀ src ∈ op.sources.take 1, p.fits src false)
    (hfits : ∀ opnd ∈ op.destination.toList ++ op.sources.drop 1,
      p.fits opnd (op.destination.any (·.type.isFloat))) :
    Similar p grade 10 (p.first.select op) (p.second.select (op.over p.image)) := by
  refine .destination fun dest hdest => .source 0 fun cond hsrc => ?_
  refine .source 1 fun ifTrue hifTrue => .source 2 fun ifFalse hifFalse => ?_
  simp only [hside.type]
  refine .ite (.unsupported _ _) ?_
  rw [of_destinationOf hdest, Option.any_some] at hfits
  have hvalue {index : Nat} {value : Operand} (h : sourceOf op (index + 1) = .ok value) :
      p.fits value dest.type.isFloat :=
    hfits value (mem_append_right _ (mem_drop_of_sourceOf h))
  have hdest : p.fits dest dest.type.isFloat :=
    hfits dest (mem_append_left _ (mem_singleton_self dest))
  have hcond := hcond cond (mem_take_of_sourceOf hsrc)
  have hskip : Similar p .instrs 2 (sequence [_]) (sequence [_]) :=
    .cons (.fetch (hvalue hifFalse) (.scratchOf dest.type.isFloat)) .nil
  exact .cons (.fetch hcond .rcx) (.cons (.fetch (hvalue hifTrue) (.scratchOf _))
    (.cons (.instr rfl rfl) (.skip hgrade .notEqual hskip (by decide) (.cons (.keep hdest) .nil))))

theorem similar_extend (signed : Bool) (hfits : ∀ opnd ∈ op.operands, p.fits opnd false) :
    Similar p grade 4 (p.first.extend op signed) (p.second.extend (op.over p.image) signed) := by
  refine .destination fun dest hdest => .source 0 fun src hsrc => ?_
  simp only [hside.type]
  refine .ite (.unsupported _ _) ?_
  refine .cons (.fetch (hfits src (source_mem_operands hsrc)) .rax) (.cons (m := 1) ?_
    (.cons (.keep (hfits dest (dest_mem_operands hdest))) .nil))
  cases signed <;> exact .instr rfl rfl

theorem similar_convertToFloat (hfits : ∀ opnd ∈ op.operands, p.fits opnd opnd.type.isFloat) :
    Similar p grade 5 (p.first.convertToFloat op) (p.second.convertToFloat (op.over p.image)) := by
  refine .destination fun dest hdest => .source 0 fun src hsrc => ?_
  have hdest := hfits dest (dest_mem_operands hdest)
  have hsrc := hfits src (source_mem_operands hsrc)
  simp only [hside.type]
  split
  next => exact .unsupported _ _
  next hinteger =>
    rw [Bool.not_eq_true] at hinteger
    rw [ValueType.isFloat, hinteger] at hdest
    split
    next hsource =>
      rw [ValueType.isFloat, hsource] at hsrc
      exact .cons (.fetch hsrc .rax) (.cons (.instr rfl rfl) (.cons (.instr rfl rfl)
        (.cons (.keep hdest) .nil)))
    next hsource =>
      rw [Bool.not_eq_true] at hsource
      rw [ValueType.isFloat, hsource] at hsrc
      refine .weaken (Nat.le_succ 4)
        (.cons (.fetch hsrc .xmm0) (.cons (m := 1) ?_ (.cons (.keep hdest) .nil)))
      exact .ite (.weaken (Nat.zero_le 1) .nil) (.instr rfl rfl)

theorem similar_convertToInteger (hwritten : ∀ dest ∈ op.destination, p.fits dest false)
    (hread : ∀ source ∈ op.sources, p.fits source true) :
    Similar p grade 4 (p.first.convertToInteger op)
      (p.second.convertToInteger (op.over p.image)) := by
  refine .destination fun dest hdest => .source 0 fun src hsrc => ?_
  simp only [hside.type]
  refine .ite (.unsupported _ _) ?_
  exact .cons (.fetch (hread src (mem_of_sourceOf hsrc)) .xmm0) (.cons (.instr rfl rfl)
    (.cons (.keep (hwritten dest (of_destinationOf hdest))) .nil))

/-! ## Memory, calls and control flow -/

theorem similar_load (hwritten : ∀ dest ∈ op.destination, p.fits dest dest.type.isFloat)
    (hread : ∀ src ∈ op.sources, p.fits src false) :
    Similar p grade 4 (p.first.load op) (p.second.load (op.over p.image)) := by
  refine .destination fun dest hdest => .source 0 fun addr haddr => ?_
  have hdest := hwritten dest (of_destinationOf hdest)
  have haddr := hread addr (mem_of_sourceOf haddr)
  simp only [hside.type]
  refine .cons (.fetch haddr .rax) (.cons (m := 1) ?_ (.cons (.keep hdest) .nil))
  cases dest.type.isFloat <;> exact .instr rfl rfl

omit hside in
theorem bytes_le (width : Width) : width.bytes ≤ 8 := by
  cases width <;> decide

theorem similar_store (haddresses : ∀ src ∈ op.sources.take 1, p.fits src false)
    (hvalues : ∀ src ∈ op.sources.drop 1, p.fits src src.type.isFloat) :
    Similar p grade 5 (p.first.store op) (p.second.store (op.over p.image)) := by
  refine .source 0 fun addr haddr => .source 1 fun value hvalue => ?_
  have haddr := haddresses addr (mem_take_of_sourceOf haddr)
  have hvalue := hvalues value (mem_drop_of_sourceOf hvalue)
  simp only [hside.type]
  refine .cons (.fetch haddr .rcx) (.cons (.fetch hvalue (.scratchOf _)) (.cons (m := 1) ?_ .nil))
  cases value.type <;> exact .instr rfl rfl

theorem similar_loadArgument (index : Nat)
    (hwritten : ∀ dest ∈ op.destination, p.fits dest dest.type.isFloat) :
    Similar p grade 2 (p.first.loadArgument op index)
      (p.second.loadArgument (op.over p.image) index) := by
  refine .destination fun dest hdest => ?_
  have hdest := hwritten dest (of_destinationOf hdest)
  simp only [← hside.arguments, hside.type]
  split
  next => exact .unsupported _ _
  next => exact .weaken (Nat.le_succ 1) (.keep hdest)
  next off hplace => exact .takeStack hdest (mem_of_getElem? hplace)

theorem similar_passStack {off : Nat} (hoff : p.outgoing off) (hfits : p.fits a a.type.isFloat) :
    Similar p grade 3 (p.first.passStack a off) (p.second.passStack (p.image a) off) := by
  rw [Target.passStack, Target.passStack, hside.type]
  refine .cons (.fetch hfits (.scratchOf _)) (.cons (m := 1) ?_ .nil)
  cases a.type <;> exact .passed hoff ⟨rfl, ⟨_, _, rfl, rfl, rfl, by decide⟩, rfl⟩

omit hside in
theorem Similar.sequence_of_forall₂ {m : Nat} {as bs : List Emission}
    (hparts : Forall₂ (Similar p grade m) as bs) :
    Similar p grade (m * as.length) (sequence as) (sequence bs) := by
  induction hparts with
  | nil => exact .nil
  | @cons first other rest others hfirst _ ih =>
    refine .weaken (Nat.le_of_eq ?_) (.cons hfirst ih)
    rw [length_cons, Nat.mul_succ, Nat.add_comm]

omit hside in
/-- The same choice among the arguments for both targets. -/
theorem forall₂_filterMap {relates : Emission → Emission → Prop} {image : Operand → Operand}
    {first second : Operand × Place → Option Emission} {places : List Place}
    (hitem : ∀ pair ∈ args.zip places,
      Option.Rel relates (first pair) (second (image pair.1, pair.2))) :
    Forall₂ relates ((args.zip places).filterMap first)
      (((args.map image).zip places).filterMap second) := by
  apply rel_filterMap (R := fun pair other =>
    other = (image pair.1, pair.2) ∧ pair ∈ args.zip places)
  · rintro pair other ⟨rfl, hmem⟩
    exact hitem pair hmem
  · rw [zip_map_left, forall₂_map_right_iff, forall₂_same]
    exact fun pair hmem => ⟨rfl, hmem⟩

theorem similar_passArguments (hfits : ∀ arg ∈ args, p.fits arg arg.type.isFloat)
    (houtg : ∀ off, Place.stack off ∈
      p.first.convention.places (args.map Operand.type) → p.outgoing off) :
    Similar p grade (6 * args.length) (p.first.passArguments args)
      (p.second.passArguments (args.map p.image)) := by
  have htypes : (args.map p.image).map Operand.type = args.map Operand.type := by
    simp [Function.comp_def, hside.type]
  have harg {places : List Place} {pair : Operand × Place}
      (hpair : pair ∈ args.zip places) : p.fits pair.1 pair.1.type.isFloat :=
    hfits pair.1 (of_mem_zip hpair).1
  rw [Target.passArguments, Target.passArguments, ← hside.convention, htypes]
  refine .weaken ?_ (.sequence_of_forall₂ (m := 3) (rel_append (R := Similar p grade 3)
    (forall₂_filterMap ?_) (forall₂_filterMap ?_)))
  · rw [length_append]
    refine Nat.le_trans (Nat.mul_le_mul_left 3
      (Nat.add_le_add (length_filterMap_le ..) (length_filterMap_le ..))) ?_
    rw [length_zip]
    omega
  · rintro ⟨arg, place⟩ hpair
    cases place with
    | register reg => exact .none
    | stack off =>
      have hoff := houtg off (of_mem_zip hpair).2
      exact .some (similar_passStack hside hoff (harg hpair))
  · rintro ⟨arg, place⟩ hpair
    cases place with
    | register reg =>
      have hreg := register_mem_of_places (of_mem_zip hpair).2
      refine .some (.weaken (Nat.le_succ 2) ?_)
      simp only [hside.type]
      exact .fetch (harg hpair) (.argument hreg)
    | stack off => exact .none

theorem similar_call (hcallees : ∀ src ∈ op.sources.take 1, p.fits src false)
    (hargs : ∀ src ∈ op.sources.drop 1, p.fits src src.type.isFloat)
    (hwritten : ∀ dest ∈ op.destination, p.fits dest dest.type.isFloat)
    (houtg : ∀ off, Place.stack off ∈
      p.first.convention.places ((op.sources.drop 1).map Operand.type) → p.outgoing off) :
    Similar p grade (6 * op.sources.length + 4) (p.first.call op)
      (p.second.call (op.over p.image)) := by
  refine .source 0 fun callee hcallee => ?_
  have hcallee := hcallees callee (mem_take_of_sourceOf hcallee)
  simp only [Operation.over, ← map_drop]
  refine .weaken ?_ (.cons (similar_passArguments hside hargs houtg)
    (.cons (.fetch hcallee .rax) (.cons (.instr rfl rfl) (.cons (m := 1) ?_ .nil))))
  · rw [length_drop]
    omega
  · cases hdest : op.destination with
    | none => exact .weaken (Nat.zero_le 1) .nil
    | some dest =>
      simp only [Option.map_some, hside.type]
      exact .keep (hwritten dest hdest)

theorem similar_ret (hfits : ∀ src ∈ op.sources, p.fits src src.type.isFloat) :
    Similar p .any 42 (p.first.ret op) (p.second.ret (op.over p.image)) := by
  refine .cons (m := 2) ?_ (.cons .epilogue .nil)
  simp only [Operation.over, head?_map]
  cases hvalue : op.sources.head? with
  | none => exact .weaken (Nat.zero_le 2) .nil
  | some value =>
    simp only [Option.map_some, hside.type]
    refine .fetch (hfits value (mem_of_head? hvalue)) (.scratch ?_)
    cases value.type <;> decide

omit hside in
theorem supported_nextOf (block : Block) : Supported (nextOf block) := by
  rw [nextOf]
  split
  · exact failsOnly_ok _
  · exact supported_unsupported _

omit hside in
theorem supported_takenOf (block : Block) : Supported (takenOf block) := by
  rw [takenOf]
  split
  · exact failsOnly_ok _
  · exact supported_unsupported _

theorem similar_branchIf (block : Block) (cmp : Comparison)
    (hread : ∀ src ∈ op.sources, p.fits src (op.sources.head?.any (·.type.isFloat))) :
    Similar p .any 12 (p.first.branchIf block op cmp)
      (p.second.branchIf (block.over p.image) (op.over p.image) cmp) := by
  refine .source 0 fun a ha => .source 1 fun b hb => ?_
  refine .bind (supported_takenOf block) fun taken _ => ?_
  refine .bind (supported_nextOf block) fun next _ => ?_
  rw [readsFloat_eq ha] at hread
  have ha := hread a (mem_of_sourceOf ha)
  have hb := hread b (mem_of_sourceOf hb)
  simp only [hside.type]
  refine .cons (m := 11) ?_ (.cons (.goTo block next) .nil)
  refine .choose (fun hfloat => ?_) fun hfloat => ?_ <;> rw [hfloat] at ha hb
  · exact .cons (similar_floatCompare hside cmp ha hb)
      (.cons (.instr rfl rfl) (.cons (.jump _ taken) .nil))
  · exact .weaken (by decide)
      (.cons (similar_integerCompare hside ha hb) (.cons (.jump _ taken) .nil))

/-! ## Whole functions -/

section Accesses

omit hside

variable {fits : Operand → Bool → Prop}

variable {operands : List Operand}

theorem of_accessedAs {isFloat : Bool}
    (h : ∀ access ∈ accessedAs isFloat operands, fits access.1 access.2) :
    ∀ opnd ∈ operands, fits opnd isFloat :=
  forall_mem_map.mp h

theorem of_accessedAsTyped (h : ∀ access ∈ accessedAsTyped operands, fits access.1 access.2) :
    ∀ opnd ∈ operands, fits opnd opnd.type.isFloat :=
  forall_mem_map.mp h

theorem of_destination {cond : Operand → Prop} {destination : Option Operand}
    (h : ∀ opnd ∈ destination.toList, cond opnd) : ∀ dest ∈ destination, cond dest :=
  fun dest hdest => h dest (Option.mem_toList.mpr hdest)

end Accesses

/-- Operations are lowered alike if each operand fits the class in which it is accessed. -/
theorem similar_operation (hgrade : grade ≠ .instrs)
    (hend : op.instruction.isTerminator = true → grade = .any) (block : Block)
    (hcovers : p.Covers op) : Similar p grade (80 * op.weight) (p.first.operation block op)
      (p.second.operation (block.over p.image) (op.over p.image)) := by
  have hweight : op.weight = op.sources.length + 1 := rfl
  have hinsn : (op.over p.image).instruction = op.instruction := rfl
  obtain ⟨hfits, houtg⟩ := hcovers
  rw [Target.operation, Target.operation, hinsn]
  -- one case for each family; the bound leaves room for the longest of them
  cases hkind : op.instruction <;> simp only [Operation.accesses, hkind, forall_mem_append] at hfits
  case add | sub | mul | and | or | xor =>
    exact .weaken (by omega) (similar_binary hside (of_accessedAs hfits))
  case div | divu =>
    exact .weaken (by omega) (similar_divide hside hgrade _ (of_accessedAs hfits))
  case shl | sar | shr => exact .weaken (by omega) (similar_shift hside (of_accessedAs hfits))
  case not => exact .weaken (by omega) (similar_complement hside (of_accessedAs hfits))
  case neg => exact .weaken (by omega) (similar_negate hside (of_accessedAs hfits))
  case copy => exact .weaken (by omega) (similar_copy hside (of_accessedAsTyped hfits))
  case compare cmp =>
    exact .weaken (by omega) (similar_compare hside cmp
      (of_destination (of_accessedAs hfits.1)) (of_accessedAs hfits.2))
  case select =>
    exact .weaken (by omega)
      (similar_select hside hgrade (of_accessedAs hfits.1) (of_accessedAs hfits.2))
  case zeroExtend32 | signExtend32 =>
    exact .weaken (by omega) (similar_extend hside _ (of_accessedAs hfits))
  case toFloat =>
    exact .weaken (by omega) (similar_convertToFloat hside (of_accessedAsTyped hfits))
  case toInteger =>
    exact .weaken (by omega) (similar_convertToInteger hside
      (of_destination (of_accessedAs hfits.1)) (of_accessedAs hfits.2))
  case load =>
    exact .weaken (by omega) (similar_load hside (of_destination (of_accessedAsTyped hfits.1))
      (of_accessedAs hfits.2))
  case store =>
    have hvalues := forall_mem_append.mp (of_accessedAsTyped hfits.2)
    exact .weaken (by omega) (similar_store hside (of_accessedAs hfits.1) hvalues.2)
  case loadArgument index =>
    have hopnds := forall_mem_append.mp (of_accessedAsTyped hfits)
    exact .weaken (by omega) (similar_loadArgument hside index (of_destination hopnds.1))
  case call =>
    have hopnds := forall_mem_append.mp (of_accessedAsTyped hfits.2)
    exact .weaken (by omega) (similar_call hside (of_accessedAs hfits.1) hopnds.2
      (of_destination hopnds.1) (houtg hkind))
  case phi => exact .unsupported _ _
  all_goals obtain rfl := hend (by rw [hkind]; rfl)
  case ret =>
    have hopnds := forall_mem_append.mp (of_accessedAsTyped hfits)
    exact .weaken (by omega) (similar_ret hside hopnds.2)
  case branch =>
    refine .weaken (m := 1) (by omega) ?_
    exact .bind (supported_nextOf block) fun next _ => .goTo block next
  case branchIf cmp =>
    exact .weaken (by omega) (similar_branchIf hside block cmp (of_accessedAs hfits))

omit hside in
theorem bind_append_eq_sequence (first rest : Emission) :
    (do let items ← first; return items ++ (← rest)) = sequence [first, rest] := by
  rw [sequence_cons, sequence_single]

theorem similar_operations (block : Block) (loading : Bool) {ops : List Operation}
    (hcovers : ∀ op ∈ ops, p.Covers op) :
    Similar p .any (80 * (ops.map Operation.weight).sum) (p.first.operations block loading ops)
      (p.second.operations (block.over p.image) loading (ops.map (Operation.over p.image))) := by
  induction ops generalizing loading with
  | nil => exact .nil
  | cons op ops ih =>
    rw [forall_mem_cons] at hcovers
    have hinsn : (op.over p.image).instruction = op.instruction := rfl
    rw [map_cons (f := Operation.over p.image), Target.operations, Target.operations, hinsn]
    refine .ite (.unsupported _ _) ?_
    rw [bind_append_eq_sequence, bind_append_eq_sequence]
    refine .weaken (Nat.le_of_eq ?_) (.cons
      (similar_operation hside (by rintro ⟨⟩) (fun _ => rfl) block hcovers.1)
      (.cons (ih _ hcovers.2) .nil))
    rw [map_cons, sum_cons, Nat.mul_add, Nat.add_zero]

omit hside in
theorem similar_fallThrough (block : Block) :
    Similar p .any 1 (fallThrough block) (fallThrough (block.over p.image)) := by
  have hend : (block.over p.image).terminator? =
      block.terminator?.map (Operation.over p.image) := by
    simp [Block.terminator?, Block.over, Option.filter_map, Function.comp_def, Operation.over]
  rw [fallThrough, fallThrough, hend]
  have hnext : (block.over p.image).next? = block.next? := rfl
  rw [hnext]
  cases block.terminator? <;> cases block.next?
  case none.none => exact .unsupported _ _
  case none.some next => exact .goTo block next
  all_goals exact .weaken (Nat.zero_le 1) .nil

theorem similar_block {block : Block} (hcovers : ∀ op ∈ block.operations, p.Covers op) :
    Similar p .any (80 * block.weight) (p.first.block block)
      (p.second.block (block.over p.image)) := by
  have hprologue : Similar p .any 40
      (.ok (if block.index = Graph.entry then p.first.frame.prologue.map .instr else []))
      (.ok (if block.index = Graph.entry then p.second.frame.prologue.map .instr else [])) := by
    split
    · exact .prologue
    · exact .weaken (Nat.zero_le 40) .nil
  refine .weaken ?_ (.cons (.enter block.index) (.cons hprologue
    (.cons (similar_operations hside block _ hcovers) (.cons (similar_fallThrough block) .nil))))
  rw [Block.weight]
  omega

theorem similar_function {graph other : Graph}
    (hblocks : other.blocks = graph.blocks.map (Block.over p.image))
    (hcovers : ∀ op ∈ graph.operations, p.Covers op) :
    Similar p .any (80 * graph.weight) (p.first.function graph) (p.second.function other) := by
  rw [Target.function, Target.function, Graph.weight, hblocks, Array.toList_map]
  have hall : ∀ block ∈ graph.blocks.toList, ∀ op ∈ block.operations, p.Covers op :=
    fun block hblock op hop => hcovers op (mem_flatMap.mpr ⟨block, hblock, hop⟩)
  generalize graph.blocks.toList = blocks at hall
  induction blocks with
  | nil => exact .nil
  | cons block blocks ih =>
    rw [forall_mem_cons] at hall
    simp only [map_cons, sum_cons, Nat.mul_add]
    exact .cons (similar_block hside hall.1) (ih hall.2)

end

theorem similar_self (target : Target) (graph : Graph) :
    Similar { first := target, second := target } .any (80 * graph.weight) (target.function graph)
      (target.function graph) :=
  similar_function ⟨rfl, rfl, rfl, fun _ => rfl⟩ graph.blocks_over_id
    fun _ _ => ⟨fun _ _ => trivial, fun _ _ _ => trivial⟩

end Lowering

end GraphJit
