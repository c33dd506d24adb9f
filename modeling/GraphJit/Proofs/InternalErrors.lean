import GraphJit.Proofs.BlockLayout
import GraphJit.Proofs.Links

/-! # Code generation does not break down

Some errors say that code generation has lost track of its own bookkeeping: near jumps
that are not opened and closed in turn or are too long, jumps to blocks that were never
entered, and placeholders that do not fit what is filled in. None of them comes up, for
any graph whose blocks carry their positions and lead to blocks of the graph, wherever
its locals are. Each operation closes the near jumps that it opens, over at most eight
instructions; each block is entered once; and the second pass over the far jumps finds
the offsets of the first.
-/

namespace GraphJit

open X64 Code List

/-- Errors about the bookkeeping of code generation itself. -/
def CompileError.isBreakdown : CompileError → Bool
  | nearJumpState _ | nearJumpOutOfRange .. | unresolvedBlock _ | jumpSizeMismatch ..
  | resolutionDiverged _ => true
  | encoding (.misplacedEdit _) | encoding (.offsetCount ..) => true
  | _ => false

variable {α : Type}

/-- A result, a fault, or an error of another kind. -/
def Unbroken (outcome : Outcome α) : Prop :=
  ∀ cause, outcome = .error (.error cause) → cause.isBreakdown = false

/-- The local that an error says has no home. -/
def CompileError.unplaced? : CompileError → Option Nat
  | allocation (.unplaced id) => some id
  | _ => none

/-- Faults, and errors that are not about the compiler itself. Only some locals may lack a
home. -/
def Failure.IsSane (missing : Nat → Prop) : Failure → Prop
  | .fault _ => True
  | .error cause => cause.isBreakdown = false ∧ cause.isInternal = false ∧
    ∀ id, cause.unplaced? = some id → missing id

abbrev Sane (missing : Nat → Prop) : Outcome α → Prop := FailsOnly (Failure.IsSane missing)

variable {missing : Nat → Prop}

theorem sane_fault (result : Except Fault α) : Sane missing (liftM result : Outcome α) := by
  cases result with
  | ok a => exact failsOnly_ok a
  | error cause => exact failsOnly_error trivial

theorem Sane.unbroken {outcome : Outcome α} (hsane : Sane missing outcome) : Unbroken outcome :=
  fun _ hcause => (hsane _ hcause).1

/-! ## Lowering -/

open Lowering

namespace Lowering

theorem mem_operands_of_mem_accesses {op : Operation} {access : Operand × Bool}
    (haccess : access ∈ op.accesses) : access.1 ∈ op.operands := by
  have hdest : ∀ {opnd}, opnd ∈ op.destination.toList → opnd ∈ op.operands :=
    mem_append_left _
  have hsrc : ∀ {opnd}, opnd ∈ op.sources → opnd ∈ op.operands :=
    mem_append_right _
  have hall : ∀ opnd ∈ op.accesses.map Prod.fst, opnd ∈ op.operands := by
    intro opnd hopnd
    unfold Operation.accesses at hopnd
    dsimp only at hopnd
    split at hopnd <;>
      simp only [accessedAs, accessedAsTyped, map_append, map_map, Function.comp_def,
        map_id', mem_append, map_nil, not_mem_nil] at hopnd
    all_goals grind [mem_of_mem_take, mem_of_mem_drop]
  exact hall _ (mem_map_of_mem haccess)

/-- Only locals that occur can be missing. -/
theorem sane_function {target : Target} {graph : Graph}
    (hmiss : ∀ op ∈ graph.operations, ∀ opnd ∈ op.operands, ∀ id,
      opnd.localId? = some id → target.allocation.location? id = none → missing id) :
    Sane missing (target.function graph) := by
  let p : Pairing := { first := target, second := target
                       fits := fun opnd _ => ∃ op ∈ graph.operations, opnd ∈ op.operands }
  have hsim : Similar p .any (80 * graph.weight) (target.function graph) (target.function graph) :=
    similar_function ⟨rfl, rfl, rfl, fun _ => rfl⟩ graph.blocks_over_id fun op hop =>
      ⟨fun access haccess => ⟨op, hop, mem_operands_of_mem_accesses haccess⟩, fun _ _ _ => trivial⟩
  intro failure hfailure
  cases hsim.failsOnly failure hfailure with
  | unsupported cause => exact ⟨rfl, rfl, fun _ h => nomatch h⟩
  | encoding reg expected => exact ⟨rfl, rfl, fun _ h => nomatch h⟩
  | spill _ _ | incoming _ _ => trivial
  | missing hfits hid hnone =>
    obtain ⟨op, hop, hopnd⟩ := hfits
    refine ⟨rfl, rfl, fun id h => ?_⟩
    cases h
    exact hmiss op hop _ hopnd _ hid hnone

/-! ## Items of a function -/

/-- The items that an operation of a block is lowered to. -/
def Belongs (block : Block) : Item → Prop
  | .jump _ target => target ∈ block.successors
  | .instr _ | .openNear _ | .closeNear => True
  | .enter _ | .bytes _ | .padding _ => False

section Items

variable {target : Target} {block : Block} {op : Operation} {items : List Item}

theorem belongs_instrs (instrs : List Instr) : ∀ item ∈ instrs.map Item.instr, Belongs block item := by
  intro item hitem
  obtain ⟨instr, -, rfl⟩ := mem_map.mp hitem
  trivial

theorem belongs_goTo {next : Nat} (hnext : block.next? = some next) :
    ∀ item ∈ goTo block next, Belongs block item := by
  intro item hitem
  rw [mem_goTo hitem]
  exact mem_of_getElem? hnext

theorem belongs_operation (hitems : target.operation block op = .ok items) :
    ∀ item ∈ items, Belongs block item := by
  cases hend : op.instruction.isTerminator with
  | false =>
    intro item hitem
    have hstraight := target.straight_operation op block hend items hitems
    rcases hstraight.mem_cases hitem with ⟨instr, rfl, -⟩ | ⟨cond, rfl⟩ | rfl <;> trivial
  | true =>
    rw [Target.operation] at hitems
    cases hkind : op.instruction with
    | ret =>
      rw [hkind] at hitems
      obtain ⟨loads, rfl, -⟩ := Target.of_ret hitems
      exact forall_mem_append.mpr ⟨belongs_instrs loads, belongs_instrs _⟩
    | branch =>
      rw [hkind] at hitems
      obtain ⟨next, hnext, rfl⟩ := Target.of_branch hitems
      exact belongs_goTo hnext
    | branchIf cmp =>
      rw [hkind] at hitems
      obtain ⟨a, b, rest, taken, next, compare, -, htaken, hnext, -, -, rfl⟩ :=
        Target.of_branchIf hitems
      rw [forall_mem_append, forall_mem_cons]
      exact ⟨belongs_instrs compare, mem_of_getElem? htaken, belongs_goTo hnext⟩
    | _ =>
      rw [hkind] at hend
      cases hend

theorem belongs_operations {loading : Bool} {ops : List Operation}
    (hitems : target.operations block loading ops = .ok items) :
    ∀ item ∈ items, Belongs block item := by
  induction ops generalizing loading items with
  | nil =>
    cases hitems
    exact forall_mem_nil _
  | cons op ops ih =>
    rw [Target.operations] at hitems
    split at hitems
    next => cases hitems
    next =>
      obtain ⟨first, rest, hfirst, hrest, rfl⟩ := of_both hitems
      exact forall_mem_append.mpr ⟨belongs_operation hfirst, ih hrest⟩

theorem belongs_fallThrough (hitems : fallThrough block = .ok items) :
    ∀ item ∈ items, Belongs block item := by
  rw [fallThrough] at hitems
  split at hitems
  next =>
    cases hitems
    exact forall_mem_nil _
  next hnext =>
    cases hitems
    exact belongs_goTo hnext
  next => cases hitems

/-- A block is entered first, and nothing else in it enters a block. -/
theorem of_lowered_block (hitems : target.block block = .ok items) :
    ∃ rest, items = .enter block.index :: rest ∧ ∀ item ∈ rest, Belongs block item := by
  obtain ⟨lowered, after, hlower, hafter, rfl⟩ := Target.of_block_parts hitems
  rw [Target.head, cons_append]
  refine ⟨_, rfl, ?_⟩
  rw [forall_mem_append, forall_mem_append]
  exact ⟨belongs_instrs _, belongs_operations hlower, belongs_fallThrough hafter⟩

/-- The block that an item enters. -/
def entered? : Item → Option Nat
  | .enter b => some b
  | _ => none

theorem filterMap_entered?_of_belongs (hbelongs : ∀ item ∈ items, Belongs block item) :
    items.filterMap entered? = [] := by
  rw [filterMap_eq_nil_iff]
  intro item hitem
  have hbelong := hbelongs item hitem
  cases item with
  | enter b => cases hbelong
  | _ => rfl

/-- Blocks are entered one after the other, and jumps lead to their successors. -/
theorem of_lowered_blocks {blocks : List Block}
    (hitems : sequence (blocks.map target.block) = .ok items) :
    items.filterMap entered? = blocks.map (·.index) ∧
      ∀ cond s, Item.jump cond s ∈ items → ∃ block ∈ blocks, s ∈ block.successors := by
  induction blocks generalizing items with
  | nil =>
    cases hitems
    simp
  | cons block blocks ih =>
    rw [map_cons] at hitems
    obtain ⟨first, others, hfirst, hothers, rfl⟩ := of_sequence_cons hitems
    obtain ⟨rest, rfl, hbelongs⟩ := of_lowered_block hfirst
    obtain ⟨hent, hjumps⟩ := ih hothers
    constructor
    · rw [filterMap_append, filterMap_cons_some (by rfl : entered? _ = _),
        filterMap_entered?_of_belongs hbelongs, hent]
      rfl
    · intro cond s hmem
      rcases mem_append.mp hmem with hmem | hmem
      · rcases mem_cons.mp hmem with heq | hmem
        · cases heq
        · exact ⟨block, mem_cons_self, hbelongs _ hmem⟩
      · obtain ⟨other, hother, hs⟩ := hjumps cond s hmem
        exact ⟨other, .tail _ hother, hs⟩

end Items

end Lowering

namespace Code

open Lowering

/-! ## Near jumps -/

section NearJumps

variable {items : List Item} {k j : Nat} (avx : Bool)

theorem startOf_append_right (front items : List Item) (k : Nat) :
    startOf avx (front ++ items) (front.length + k) =
      startOf avx front front.length + startOf avx items k := by
  rw [startOf, take_length_add_append, flatMap_append, length_append, startOf_length]
  rfl

theorem ClosedBy.append (hclosed : ClosedBy items k j) (front : List Item) :
    ClosedBy (front ++ items) (front.length + k) (front.length + j) := by
  obtain ⟨hlt, hclose, hfirst⟩ := hclosed
  refine ⟨Nat.add_lt_add_left hlt _, ?_, fun m hk hm => ?_⟩
  · rwa [getElem?_append_right (Nat.le_add_right ..), Nat.add_sub_cancel_left]
  · obtain ⟨i, rfl⟩ := Nat.exists_eq_add_of_le (show front.length ≤ m by omega)
    rw [getElem?_append_right (Nat.le_add_right ..), Nat.add_sub_cancel_left]
    exact hfirst i (by omega) (by omega)

/-- The near jump at a place is closed within reach. -/
def ClosedInReach (items : List Item) (k : Nat) : Prop :=
  ∃ j, ClosedBy items k j ∧ startOf avx items j ≤ startOf avx items k + Stream.nearSize + 127

variable {avx}

theorem ClosedInReach.append (hclosed : ClosedInReach avx items k) (front : List Item) :
    ClosedInReach avx (front ++ items) (front.length + k) := by
  obtain ⟨j, hclosed, hreach⟩ := hclosed
  refine ⟨front.length + j, hclosed.append front, ?_⟩
  rw [startOf_append_right, startOf_append_right]
  omega

/-- Items in front in which no near jump is opened do not matter. -/
theorem closedInReach_behind {cond : Condition} (front : List Item)
    (hfront : Item.openNear cond ∉ front)
    (hitems : ∀ k, items[k]? = some (.openNear cond) → ClosedInReach avx items k)
    (hk : (front ++ items)[k]? = some (.openNear cond)) : ClosedInReach avx (front ++ items) k := by
  have hle : front.length ≤ k := by
    by_contra hlt
    rw [getElem?_append_left (Nat.not_le.mp hlt)] at hk
    exact hfront (mem_of_getElem? hk)
  obtain ⟨i, rfl⟩ := Nat.exists_eq_add_of_le hle
  rw [getElem?_append_right hle, Nat.add_sub_cancel_left] at hk
  exact (hitems i hk).append front

variable (avx)

theorem closedInReach_skip (cond : Condition) {skipped : List Instr}
    (hskip : skipped.length ≤ mostSkipped) (items : List Item) :
    ClosedInReach avx (.openNear cond :: (skipped.map .instr ++ .closeNear :: items)) 0 := by
  refine ⟨skipped.length + 1, ⟨Nat.succ_pos _, ?_, fun m hpos hm => ?_⟩, ?_⟩
  · simp
  · obtain ⟨i, rfl⟩ := Nat.exists_eq_succ_of_ne_zero (Nat.ne_of_gt hpos)
    rw [getElem?_cons_succ, getElem?_append_left (by simpa using hm)]
    intro hclose
    obtain ⟨instr, -, heq⟩ := mem_map.mp (mem_of_getElem? hclose)
    cases heq
  · have hbytes := (Matching.instrs skipped []).length_code_le avx
    have hmost : mostSkipped = 8 := rfl
    have htake : (Item.openNear cond :: (skipped.map Item.instr ++ .closeNear :: items)).take
        (skipped.length + 1) = .openNear cond :: skipped.map .instr := by
      rw [take_succ_cons, take_left' (length_map ..)]
    rw [startOf, htake, flatMap_cons, length_append]
    have hopen : (Item.emitted avx (.openNear cond)).length = Stream.nearSize := rfl
    rw [length_map] at hbytes
    omega

theorem closedInReach_of_matching {xs ys : List Item} (hmatch : Matching xs ys) (cond : Condition) :
    ∀ k, xs[k]? = some (.openNear cond) → ClosedInReach avx xs k := by
  induction hmatch with
  | nil => simp
  | left instr _ ih => exact fun k hk => closedInReach_behind [.instr instr] (by simp) ih hk
  | right instr _ ih => exact ih
  | enter b _ ih => exact fun k hk => closedInReach_behind [.enter b] (by simp) ih hk
  | jump far target _ ih =>
    exact fun k hk => closedInReach_behind [.jump far target] (by simp) ih hk
  | @skip near as bs xs ys has _ _ ih =>
    intro k hk
    cases k with
    | zero => exact closedInReach_skip avx near has xs
    | succ k =>
      have hsplit : as.map Item.instr ++ .closeNear :: xs =
          (as.map .instr ++ [.closeNear]) ++ xs := by simp
      rw [getElem?_cons_succ, hsplit] at hk
      rw [hsplit, Nat.add_comm k 1]
      exact (closedInReach_behind _ (by simp) ih hk).append [.openNear near]

end NearJumps

/-! ## Emitting and finishing -/

/-- Items are emitted if their near jumps are in order and their blocks are new. -/
theorem exists_emit_of_matching {xs ys : List Item} (hmatch : Matching xs ys) {stream : Stream}
    (hnear : stream.near = none) (honce : (xs.filterMap entered?).Nodup)
    (hfree : ∀ b ∈ xs.filterMap entered?, stream.blocks[b]? = some none) :
    ∃ last, stream.emit xs = .ok last ∧ last.near = none := by
  induction hmatch generalizing stream with
  | nil => exact ⟨stream, rfl, hnear⟩
  | left instr _ ih => exact ih hnear honce hfree
  | right instr _ ih => exact ih hnear honce hfree
  | @enter b xs ys _ ih =>
    rw [filterMap_cons_some (by rfl : entered? _ = _)] at honce hfree
    obtain ⟨hnew, honce⟩ := nodup_cons.mp honce
    obtain ⟨hb, hfree⟩ := forall_mem_cons.mp hfree
    have henter : stream.step (.enter b) = ({ stream with
        blocks := stream.blocks.setIfInBounds b (some stream.position) }, .ok ()) := by
      simp only [Stream.step, Stream.enter, hb]
      rfl
    rw [Stream.emit, henter]
    refine ih hnear honce fun c hc => ?_
    have hne : b ≠ c := fun h => hnew (h ▸ hc)
    simpa [Array.getElem?_setIfInBounds_ne hne] using hfree c hc
  | jump cond target _ ih => exact ih hnear honce hfree
  | @skip cond as bs xs ys has _ _ ih =>
    obtain ⟨next, hnext, hblocks, -, hemit⟩ := Stream.exists_emit_skip hnear cond has
    have hent : (Item.openNear cond :: (as.map .instr ++ .closeNear :: xs)).filterMap
        entered? = xs.filterMap entered? := by
      have hinstrs : (as.map Item.instr).filterMap entered? = [] := by
        simp [filterMap_eq_nil_iff, entered?]
      rw [filterMap_cons_none rfl, filterMap_append, hinstrs, nil_append, filterMap_cons_none rfl]
    rw [hent] at honce hfree
    rw [hemit]
    exact ih hnext honce (hblocks ▸ hfree)

theorem sane_edit {jump : Jump} (hsize : jump.size = placeholderSize jump.condition)
    (off : Int) : Sane missing (jump.edit off) := by
  rw [edit_eq]
  split
  · have hlength : (jump.filling off).bytes.length = jump.size :=
      (length_farBytes ..).trans hsize.symm
    rw [if_neg (not_not_intro hlength)]
    exact failsOnly_ok _
  · exact failsOnly_error ⟨rfl, rfl, by rintro _ ⟨⟩⟩

section Finish

variable {avx : Bool} {count : Nat} {items : List Item} {stream : Stream}
  (hlaid : Laid avx count items stream) (hord : stream.Ordered)
include hlaid hord

theorem sane_finish (hnear : stream.near = none) (hent : stream.Landing) :
    Sane missing stream.finish := by
  rw [Stream.finish]
  split
  next => exact failsOnly_error trivial
  next hbound =>
    rw [Nat.not_le] at hbound
    rw [hnear, if_neg (by decide)]
    obtain ⟨resolution, hresolve, hoffs, -⟩ :=
      exists_resolve (mapM_offset hlaid hord hbound hent)
    change Sane missing (resolve stream.jumps.toList stream.blocks >>= fun resolution =>
      linearize _ _ resolution _)
    rw [hresolve]
    change Sane missing (linearize _ _ resolution _)
    have hcount : resolution.offsets.length = stream.jumps.toList.length := by
      rw [hoffs, length_map]
    rw [linearize, if_neg (not_not_intro hcount)]
    refine FailsOnly.bind (.mapM fun pair hpair => ?_) fun filled hfilled => ?_
    · exact sane_edit (hlaid.size_of_jump (of_mem_zip hpair).1) pair.2
    · obtain ⟨out, hout⟩ := exists_splice_edits hlaid hord
        (filledBy_of_mapM (of_settle hresolve) hfilled) hbound
      rw [hout]
      exact failsOnly_ok out

end Finish

end Code

/-! ## Generated code -/

section Generate

variable {graph : Graph}

variable {target : Target} {items : List Item}

theorem matching_operation {block : Block} {op : Operation}
    (hitems : target.operation block op = .ok items) : Matching items items := by
  have hsim : Similar { first := target, second := target } .any (80 * op.weight)
      (target.operation block op) (target.operation (block.over id) (op.over id)) :=
    similar_operation ⟨rfl, rfl, rfl, fun _ => rfl⟩ (by rintro ⟨⟩) (fun _ => rfl) block
      ⟨fun _ _ => trivial, fun _ _ _ => trivial⟩
  have hpaired := hsim.paired (.refl target)
  rw [Block.over_id, Operation.over_id, hitems] at hpaired
  cases hpaired with
  | both hmatch _ _ _ => exact hmatch

/-- What the items of a function need to become code. -/
structure Sound (avx : Bool) (count : Nat) (items : List Item) : Prop where
  lands : ∀ cond b, Item.jump cond b ∈ items → ∃! k : Nat, items[k]? = some (.enter b)
  emitted : ∃ stream, (Stream.new avx count).emit items = .ok stream ∧ stream.near = none ∧
    Unbroken stream.finish ∧ (stream.position < twoPow 63 →
      ∃ resolution, resolve stream.jumps.toList stream.blocks = .ok resolution ∧
        resolution.iterations ≤ 1)

theorem sound_of_function (hidx : graph.Indexed)
    (hsuccessors : ∀ a b, b ∈ graph.successors a → b < graph.size) (avx : Bool)
    (hitems : target.function graph = .ok items) :
    Sound avx graph.size items ∧ ∃ stream, (Stream.new avx graph.size).emit items = .ok stream ∧
        ∀ missing, Sane missing stream.finish := by
  obtain ⟨hent, hjumps⟩ := of_lowered_blocks hitems
  rw [hidx.indices] at hent
  have hmatch := (of_function hitems).1
  have hfree : ∀ b ∈ items.filterMap entered?, (Stream.new avx graph.size).blocks[b]? = some none := by
    rw [hent]
    intro b hb
    simp [Stream.new, mem_range.mp hb]
  obtain ⟨stream, hemit, hnear⟩ :=
    exists_emit_of_matching hmatch rfl (hent ▸ nodup_range) hfree
  have hlaid := laid_of_emit hemit
  have hord := ordered_of_emit hemit
  have hsize : ∀ cond b, Item.jump cond b ∈ items → b < graph.size := by
    intro cond b hjump
    obtain ⟨block, hblock, hb⟩ := hjumps cond b hjump
    obtain ⟨a, ha⟩ := Graph.mem_blocks_iff.mp hblock
    exact hsuccessors a b (by rwa [Graph.successors_eq ha])
  have hplace : ∀ b < graph.size, ∃ k : Nat, items[k]? = some (.enter b) := by
    intro b hb
    have hmem : b ∈ items.filterMap entered? := hent ▸ mem_range.mpr hb
    obtain ⟨item, hitem, henter⟩ := mem_filterMap.mp hmem
    cases item <;> cases henter
    exact mem_iff_getElem?.mp hitem
  have hland : stream.Landing := by
    intro jump hjump
    obtain ⟨k, cond, target, hk, rfl⟩ := (hlaid.jumps jump).mp hjump
    obtain ⟨j, hj⟩ := hplace target (hsize cond target (mem_of_getElem? hk))
    exact ⟨_, (hlaid.blocks target _).mpr ⟨j, hj, rfl⟩⟩
  have hfinish (missing : Nat → Prop) : Sane missing stream.finish :=
    sane_finish hlaid hord hnear hland
  refine ⟨⟨fun cond b hjump => ?_, stream, hemit, hnear, (hfinish fun _ => True).unbroken,
    fun hbound => ?_⟩, stream, hemit, hfinish⟩
  · obtain ⟨k, hk⟩ := hplace b (hsize cond b hjump)
    exact ⟨k, hk, fun j hj => hlaid.once b j k hj hk⟩
  · obtain ⟨resolution, hresolve, -, hiterations⟩ :=
      exists_resolve (mapM_offset hlaid hord hbound hland)
    exact ⟨resolution, hresolve, hiterations⟩

variable (missing) in
theorem sane_generate (hidx : graph.Indexed)
    (hsuccessors : ∀ a b, b ∈ graph.successors a → b < graph.size) (opts : Options)
    {alloc : Allocation} (args : List ValueType)
    (hmiss : ∀ op ∈ graph.operations, ∀ opnd ∈ op.operands, ∀ id,
      opnd.localId? = some id → alloc.location? id = none → missing id) :
    Sane missing (graph.generate opts alloc args) := by
  cases hframe : Frame.compute opts.convention alloc.intUsed alloc.vecUsed
      alloc.spillSize graph.maxCallArguments? with
  | error fault =>
    rw [Graph.generate, hframe]
    exact failsOnly_error trivial
  | ok frame =>
    rw [generate_eq hframe]
    refine (sane_function hmiss).bind fun items hitems => ?_
    obtain ⟨-, stream, hemit, hfinish⟩ := sound_of_function hidx hsuccessors opts.avx hitems
    refine FailsOnly.bind ?_ fun code _ => failsOnly_ok _
    rw [assemble, hemit]
    exact hfinish missing

/-- Code generation does not break down: every operation closes its own near jumps within
reach, every jump has one block to go to, and the far jumps are settled at the second pass. -/
theorem generate_unbroken (hidx : graph.Indexed)
    (hsuccessors : ∀ a b, b ∈ graph.successors a → b < graph.size) (opts : Options)
    (alloc : Allocation) (args : List ValueType) :
    (∀ cause, graph.generate opts alloc args = .error (.error cause) →
      cause.isBreakdown = false) ∧
    (∀ (target : Target) (block : Block) (op : Operation) (items : List Item),
      target.operation block op = .ok items → ∀ avx k cond,
        items[k]? = some (.openNear cond) → ClosedInReach avx items k) ∧
    ∀ frame items, (targetOf opts alloc frame args).function graph = .ok items →
      Sound opts.avx graph.size items := by
  refine ⟨(sane_generate (fun _ => True) hidx hsuccessors opts args
      fun _ _ _ _ _ _ _ => trivial).unbroken,
    fun target block op items hitems avx k cond hk => ?_,
    fun frame items hitems => (sound_of_function hidx hsuccessors opts.avx hitems).1⟩
  exact closedInReach_of_matching avx (matching_operation hitems) cond k hk

/-- A division and a choice between floats in a loop. The branch stands in the middle of its
block. -/
def guardedSample : Graph where
  blocks := #[
    { index := 0
      operations := [
        .compute .div (.localVar 0 .i64) [.localVar 1 .i64, .localVar 0 .i64],
        .branchIf .ne (.localVar 0 .i64) (.constant 0 .i64),
        .compute .select (.localVar 2 .f64)
          [.localVar 0 .i64, .localVar 2 .f64, .constant 0x3ff0000000000000 .f64]]
      successors := [1, 0]
      predecessors := [0] },
    { index := 1
      operations := [.ret (.localVar 0 .i64)]
      predecessors := [0] }]
  locals := ⟨#[some .i64, some .i64, some .f64]⟩

def guardedHomes : Allocation where
  locations := #[some (.spill 0), some (.register .rbx), some (.spill 0x7fff00)]
  intUsed := 8
  vecUsed := 0
  spillSize := 0x7fff08

theorem generate_unbroken_guardedSample :
    (∃ items, (targetOf { avx := true } guardedHomes { intSaved := 8, spill := 0x7fff10 }
        []).function guardedSample = .ok items ∧ Item.openNear .notEqual ∈ items ∧
      Sound true guardedSample.size items) ∧
    ∀ cause, guardedSample.generate { avx := true } guardedHomes [] = .error (.error cause) →
      cause.isBreakdown = false := by
  have hidx : ∀ b < 2, ∀ block ∈ guardedSample.blocks[b]?, block.index = b := by decide
  have hsuccessors : ∀ a < 2, ∀ b ∈ guardedSample.successors a, b < guardedSample.size := by decide
  obtain ⟨hcauses, -, hsound⟩ := @generate_unbroken guardedSample
    (fun b block hblock => hidx b (Array.getElem?_eq_some_iff.mp hblock).1 block hblock)
    (fun a b hb => hsuccessors a (Graph.source_lt_size hb) b hb) { avx := true } guardedHomes []
  have hopens : ((targetOf { avx := true } guardedHomes { intSaved := 8, spill := 0x7fff10 }
      []).function guardedSample).toOption.any (·.contains (.openNear .notEqual)) = true := by
    decide +kernel
  refine ⟨?_, hcauses⟩
  cases hitems : (targetOf { avx := true } guardedHomes { intSaved := 8, spill := 0x7fff10 }
      []).function guardedSample with
  | error failure =>
    rw [hitems] at hopens
    cases hopens
  | ok items =>
    rw [hitems] at hopens
    exact ⟨items, rfl, by simpa [Except.toOption] using hopens, hsound _ items hitems⟩

end Generate

end GraphJit
