import GraphJit.Proofs.Execution
import GraphJit.Proofs.LoweredInstructions

/-! # The layout of lowered blocks

A block is lowered to a mark, the prologue if it is the entry, straight code for its
operations, and an exit. There are three kinds of exits: a return through the
epilogue, a way on to the next block, and a conditional jump before that. Far
jumps stand in exits only and lead to successors, near jumps stay within the
operation they belong to, and control gets past the last item only if the following
block is a successor.
-/

namespace GraphJit

open X64 Code List

namespace Block

/-- The operations of a block without the one that ends it. -/
def body (block : Block) : List Operation :=
  if block.terminator?.isSome then block.operations.dropLast else block.operations

/-- The blocks that control may go to from a block. -/
def exits (block : Block) : List Nat := match block.terminator? with
  | none => block.next?.toList
  | some op =>
    match op.instruction with
    | .ret => []
    | .branchIf _ => block.taken?.toList ++ block.next?.toList
    | _ => block.next?.toList

variable {block : Block}

theorem of_terminator? {op : Operation} (hop : block.terminator? = some op) :
    block.operations = block.body ++ [op] ∧ op.instruction.isTerminator = true := by
  have hbody : block.body = block.operations.dropLast := if_pos (by rw [hop]; rfl)
  obtain ⟨hlast, hend⟩ := Option.filter_eq_some_iff.mp hop
  rw [hbody]
  exact ⟨(dropLast_append_getLast? op hlast).symm, hend⟩

theorem of_terminator?_none (hop : block.terminator? = none) : block.body = block.operations :=
  if_neg (by rw [hop]; decide)

/-- If terminators stand at the end only, there is none among the other operations. -/
theorem isTerminator_body
    (hterms : ∀ op ∈ block.operations.dropLast, op.instruction.isTerminator = false) :
    ∀ op ∈ block.body, op.instruction.isTerminator = false := by
  cases hend : block.terminator? with
  | some last =>
    rwa [body, if_pos (by rw [hend]; rfl)]
  | none =>
    rw [of_terminator?_none hend]
    intro op hop
    cases hlast : block.operations.getLast? with
    | none =>
      rw [getLast?_eq_none_iff.mp hlast] at hop
      cases hop
    | some last =>
      rw [← dropLast_append_getLast? last hlast, mem_append, mem_singleton] at hop
      rcases hop with hinner | rfl
      · exact hterms op hinner
      · rw [terminator?, hlast, Option.filter_eq_none_iff] at hend
        exact Bool.eq_false_of_not_eq_true (hend op rfl)

end Block

namespace Lowering

open HostRegister (rax)

namespace Target

variable {target : Target} {block : Block}

/-! ## Operations -/

variable {loading : Bool} {ops : List Operation} {items : List Item}

/-- Operations that do not end their block are lowered to straight code. -/
theorem straight_operations (hops : ∀ op ∈ ops, op.instruction.isTerminator = false)
    (hitems : target.operations block loading ops = .ok items) :
    Straight (fun instr => ∃ op ∈ ops, target.Permits op instr) items := by
  induction ops generalizing loading items with
  | nil =>
    cases hitems
    exact .nil
  | cons op ops ih =>
    rw [forall_mem_cons] at hops
    rw [operations] at hitems
    split at hitems
    next => cases hitems
    next =>
      obtain ⟨first, rest, hfirst, hrest, rfl⟩ := of_both hitems
      apply Straight.append
      · apply (target.straight_operation op block hops.1 first hfirst).mono
        exact fun instr hinstr => ⟨op, mem_cons_self, hinstr⟩
      · apply (ih hops.2 hrest).mono
        rintro instr ⟨other, hother, hinstr⟩
        exact ⟨other, mem_cons_of_mem op hother, hinstr⟩

theorem of_operations_append {others : List Operation}
    (hitems : target.operations block loading (ops ++ others) = .ok items) :
    ∃ first rest, target.operations block loading ops = .ok first ∧
      target.operations block (loading && ops.all (·.instruction.isLoadArgument)) others
        = .ok rest ∧ items = first ++ rest := by
  induction ops generalizing loading items with
  | nil => exact ⟨[], items, rfl, by rwa [all_nil, Bool.and_true], rfl⟩
  | cons op ops ih =>
    rw [cons_append, operations] at hitems
    split at hitems
    next => cases hitems
    next hloading =>
      obtain ⟨head, hhead, hitems⟩ := of_bind hitems
      obtain ⟨tail, htail, hitems⟩ := of_bind hitems
      cases hitems
      obtain ⟨first, rest, hfirst, hrest, rfl⟩ := ih htail
      refine ⟨head ++ first, rest, ?_, ?_, (append_assoc ..).symm⟩
      · rw [operations, if_neg hloading, hhead, hfirst]
        rfl
      · rwa [all_cons, ← Bool.and_assoc]

theorem of_operations_concat {op : Operation}
    (hitems : target.operations block loading (ops ++ [op]) = .ok items) :
    ∃ body exit, target.operations block loading ops = .ok body ∧
      target.operation block op = .ok exit ∧ items = body ++ exit := by
  obtain ⟨body, last, hbody, hlast, rfl⟩ := of_operations_append hitems
  rw [operations] at hlast
  split at hlast
  next => cases hlast
  next =>
    obtain ⟨exit, hexit, hlast⟩ := of_bind hlast
    cases hlast
    exact ⟨body, exit, hbody, hexit, by rw [append_nil]⟩

/-! ## Exits -/

/-- Code for the comparison that a conditional jump depends on. -/
def deciding (target : Target) (cmp : Comparison) (a b : Operand) : Emission :=
  if a.type.isFloat then
    sequence [target.floatCompare cmp a b, emit (Assembler.alu .test .w32 rax rax)]
  else target.integerCompare a b

end Target

/-- The condition of the jump after that code. -/
def decidingCondition (cmp : Comparison) (a : Operand) : Condition :=
  if a.type.isFloat then .notEqual else .ofIntegers cmp

namespace Target

/-- Code at the end of a block: its terminator, or what follows without one. -/
def exit (target : Target) (block : Block) : Emission := match block.terminator? with
  | some op => target.operation block op
  | none => fallThrough block

/-- Instructions of exits that only prepare something. -/
def Prepares (target : Target) (op : Operation) (instr : Instr) : Prop :=
  instr.isTotal = true ∧ target.Permits op instr

/-- The kinds of exits. -/
inductive Exits (target : Target) (block : Block) : List Item → Prop
  | returned {op : Operation} {loads : List Instr} (hop : block.terminator? = some op)
      (hret : op.instruction = .ret) (hloads : ∀ instr ∈ loads, target.Prepares op instr) :
      Exits target block (loads.map .instr ++ target.frame.epilogue.map .instr)
  | goesOn {next : Nat} (hop : ∀ op ∈ block.terminator?, op.instruction = .branch)
      (hnext : block.next? = some next) : Exits target block (goTo block next)
  | decides {op : Operation} {cmp : Comparison} {a b : Operand} {rest : List Operand}
      {taken next : Nat} {compare : List Instr} (hop : block.terminator? = some op)
      (hbranch : op.instruction = .branchIf cmp) (hsrcs : op.sources = a :: b :: rest)
      (htaken : block.taken? = some taken) (hnext : block.next? = some next)
      (hcmp : target.deciding cmp a b = .ok (compare.map .instr))
      (hinstrs : ∀ instr ∈ compare, target.Prepares op instr) :
      Exits target block (compare.map .instr ++
        .jump (some (decidingCondition cmp a)) taken :: goTo block next)

variable {target : Target} {block : Block} {op : Operation} {items : List Item}

theorem allowsScratch_prepares (target : Target) (op : Operation) :
    AllowsScratch (target.Prepares op) :=
  fun name hname instr h => ⟨h.total, target.allowsScratch_permits op name hname instr h⟩

theorem instrs_deciding (cmp : Comparison) (a b : Operand) :
    EmitsInstrs 10 (target.Prepares op) (target.deciding cmp a b) := by
  have hscr := target.allowsScratch_prepares op
  apply EmitsInstrs.ite
  · intro _
    apply (instrs_floatCompare hscr cmp).cons
    exact (hscr.emit (by decide) fun _ => Assembler.sets_alu).last
  · exact fun _ => (instrs_integerCompare hscr).mono (by decide)

theorem of_nextOf {next : Nat} (hnext : nextOf block = .ok next) : block.next? = some next := by
  rw [nextOf] at hnext
  split at hnext
  next found hfound =>
    cases hnext
    exact hfound
  next => cases hnext

theorem of_takenOf {taken : Nat} (htaken : takenOf block = .ok taken) :
    block.taken? = some taken := by
  rw [takenOf] at htaken
  split at htaken
  next found hfound =>
    cases htaken
    exact hfound
  next => cases htaken

theorem of_sourcesOf {a b : Operand} (ha : sourceOf op 0 = .ok a) (hb : sourceOf op 1 = .ok b) :
    ∃ rest, op.sources = a :: b :: rest := by
  have ha := of_sourceOf ha
  have hb := of_sourceOf hb
  cases hsrcs : op.sources with
  | nil => rw [hsrcs] at ha; cases ha
  | cons first others =>
    rw [hsrcs] at ha hb
    cases others with
    | nil => cases hb
    | cons second rest =>
      cases ha
      cases hb
      exact ⟨rest, rfl⟩

/-- A return is loads of the result and the epilogue. -/
theorem of_ret (hitems : target.ret op = .ok items) :
    ∃ loads : List Instr, items = loads.map .instr ++ target.frame.epilogue.map .instr ∧
      ∀ instr ∈ loads, target.Prepares op instr := by
  have hscr := target.allowsScratch_prepares op
  rw [ret] at hitems
  obtain ⟨first, last, hfirst, hlast, rfl⟩ := of_sequence_cons hitems
  have hloads : ∃ loads : List Instr, first = loads.map .instr ∧
      ∀ instr ∈ loads, target.Prepares op instr := by
    split at hfirst
    next value hvalue =>
      have hreturn : Convention.returnRegister value.type ∈ scratchNames := by
        cases value.type <;> decide
      obtain ⟨loads, hloads, hallow, -⟩ := instrs_fetch (hscr _ hreturn) hscr first hfirst
      exact ⟨loads, hloads, hallow⟩
    next =>
      cases hfirst
      exact ⟨[], rfl, forall_mem_nil _⟩
  obtain ⟨loads, rfl, hloads⟩ := hloads
  rw [sequence_single] at hlast
  cases hlast
  exact ⟨loads, rfl, hloads⟩

theorem of_branch (hitems : branch block = .ok items) :
    ∃ next, block.next? = some next ∧ items = goTo block next := by
  obtain ⟨next, hnext, hitems⟩ := of_bind hitems
  cases hitems
  exact ⟨next, of_nextOf hnext, rfl⟩

/-- A conditional branch is the comparison, a jump that depends on it, and the way on. -/
theorem of_branchIf {cmp : Comparison} (hitems : target.branchIf block op cmp = .ok items) :
    ∃ a b rest taken next, ∃ compare : List Instr, op.sources = a :: b :: rest ∧
      block.taken? = some taken ∧ block.next? = some next ∧
      target.deciding cmp a b = .ok (compare.map .instr) ∧
      (∀ instr ∈ compare, target.Prepares op instr) ∧ items = compare.map .instr ++
        .jump (some (decidingCondition cmp a)) taken :: goTo block next := by
  obtain ⟨a, ha, hitems⟩ := of_bind hitems
  obtain ⟨b, hb, hitems⟩ := of_bind hitems
  obtain ⟨taken, htaken, hitems⟩ := of_bind hitems
  obtain ⟨next, hnext, hitems⟩ := of_bind hitems
  obtain ⟨rest, hsrcs⟩ := of_sourcesOf ha hb
  -- the jump ends the comparison
  have hjump : (if a.type.isFloat then
        sequence [target.floatCompare cmp a b, emit (Assembler.alu .test .w32 rax rax),
            .ok [.jump (some .notEqual) taken]]
      else
        sequence [target.integerCompare a b, .ok [.jump (some (Condition.ofIntegers cmp)) taken]])
      = sequence [target.deciding cmp a b, .ok [.jump (some (decidingCondition cmp a)) taken]] := by
    rw [deciding, decidingCondition]
    cases a.type.isFloat with
    | false => rfl
    | true =>
      rw [if_pos rfl, if_pos rfl, if_pos rfl, sequence_cons (sequence _)]
      exact sequence_append [_, _] [_]
  rw [hjump] at hitems
  obtain ⟨first, last, hfirst, hlast, rfl⟩ := of_sequence_cons hitems
  rw [sequence_single] at hlast
  cases hlast
  obtain ⟨compare, jump, hcmp, hjump, rfl⟩ := of_sequence_cons hfirst
  rw [sequence_single] at hjump
  cases hjump
  obtain ⟨instrs, rfl, hinstrs, -⟩ := @instrs_deciding target op cmp a b compare hcmp
  rw [append_assoc, singleton_append]
  exact ⟨a, b, rest, taken, next, instrs, hsrcs, of_takenOf htaken, of_nextOf hnext, hcmp,
    hinstrs, rfl⟩

theorem exits_of_exit (hitems : target.exit block = .ok items) : target.Exits block items := by
  rw [exit] at hitems
  cases hop : block.terminator? with
  | none =>
    rw [hop] at hitems
    dsimp only at hitems
    rw [fallThrough, hop] at hitems
    cases hnext : block.next? with
    | none =>
      rw [hnext] at hitems
      cases hitems
    | some next =>
      rw [hnext] at hitems
      cases hitems
      refine .goesOn (fun op hmem => ?_) hnext
      rw [hop] at hmem
      cases hmem
  | some op =>
    rw [hop] at hitems
    have hend := (Block.of_terminator? hop).2
    dsimp only at hitems
    rw [operation] at hitems
    cases hkind : op.instruction with
    | ret =>
      rw [hkind] at hitems
      obtain ⟨loads, rfl, hloads⟩ := of_ret hitems
      exact .returned hop hkind hloads
    | branch =>
      rw [hkind] at hitems
      obtain ⟨next, hnext, rfl⟩ := of_branch hitems
      refine .goesOn (fun other hmem => ?_) hnext
      rw [hop] at hmem
      cases hmem
      exact hkind
    | branchIf cmp =>
      rw [hkind] at hitems
      obtain ⟨a, b, rest, taken, next, compare, hsrcs, htaken, hnext, hcmp, hinstrs, rfl⟩ :=
        of_branchIf hitems
      exact .decides hop hkind hsrcs htaken hnext hcmp hinstrs
    | _ =>
      rw [hkind] at hend
      cases hend

end Target

/-! ## Segments -/

/-- Every near jump is closed later on. -/
def Closes (items : List Item) : Prop :=
  ∀ (i : Nat) (cond : Condition), items[i]? = some (.openNear cond) →
    ∃ j, i < j ∧ items[j]? = some .closeNear

namespace Closes

variable {items others : List Item}

theorem of_notMem (h : ∀ cond, Item.openNear cond ∉ items) : Closes items :=
  fun _ cond hi => absurd (mem_of_getElem? hi) (h cond)

theorem append (h : Closes items) (h' : Closes others) : Closes (items ++ others) := by
  intro i cond hi
  by_cases hlt : i < items.length
  · rw [getElem?_append_left hlt] at hi
    obtain ⟨j, hij, hj⟩ := h i cond hi
    refine ⟨j, hij, ?_⟩
    rwa [getElem?_append_left (lt_length hj)]
  · rw [getElem?_append_right (Nat.le_of_not_lt hlt)] at hi
    obtain ⟨j, hij, hj⟩ := h' (i - items.length) cond hi
    refine ⟨items.length + j, by omega, ?_⟩
    rwa [getElem?_append_right (Nat.le_add_right ..), Nat.add_sub_cancel_left]

theorem cons {item : Item} (hitem : ∀ cond, item ≠ .openNear cond) (h : Closes items) :
    Closes (item :: items) := by
  intro i cond hi
  cases i with
  | zero => exact absurd (Option.some.inj hi) (hitem cond)
  | succ i =>
    obtain ⟨j, hij, hj⟩ := h i cond hi
    exact ⟨j + 1, Nat.succ_lt_succ hij, hj⟩

theorem instrs (instrs : List Instr) : Closes (instrs.map .instr) := by
  apply of_notMem
  intro cond hmem
  obtain ⟨instr, -, heq⟩ := mem_map.mp hmem
  cases heq

end Closes

variable {item : Item} {allowed : Instr → Prop} {items : List Item} {block : Block}

theorem Straight.closes (h : Straight allowed items) : Closes items := by
  induction h with
  | nil => exact .instrs []
  | instr _ _ ih => exact ih.cons fun _ => Item.noConfusion
  | @skip cond skipped items _ _ ih =>
    have hrest : Closes (skipped.map .instr ++ .closeNear :: items) :=
      (Closes.instrs skipped).append (ih.cons fun _ => Item.noConfusion)
    intro i other hi
    cases i with
    | zero =>
      refine ⟨skipped.length + 1, Nat.succ_pos _, ?_⟩
      rw [getElem?_cons_succ, getElem?_append_right (by rw [length_map]),
        length_map, Nat.sub_self]
      rfl
    | succ i =>
      obtain ⟨j, hij, hj⟩ := hrest i other hi
      exact ⟨j + 1, Nat.succ_lt_succ hij, hj⟩

/-- The items of straight code. -/
theorem Straight.mem_cases (h : Straight allowed items) (hitem : item ∈ items) :
    (∃ instr, item = .instr instr ∧ allowed instr) ∨ (∃ cond, item = .openNear cond) ∨
      item = .closeNear := by
  induction h with
  | nil => cases hitem
  | @instr instr _ hallow _ ih =>
    rcases mem_cons.mp hitem with rfl | hrest
    · exact .inl ⟨instr, rfl, hallow⟩
    · exact ih hrest
  | @skip cond skipped _ hallow _ ih =>
    rcases mem_cons.mp hitem with rfl | hmem
    · exact .inr (.inl ⟨cond, rfl⟩)
    · rcases mem_append.mp hmem with hskip | hmem
      · obtain ⟨instr, hinstr, rfl⟩ := mem_map.mp hskip
        exact .inl ⟨instr, rfl, hallow instr hinstr⟩
      · rcases mem_cons.mp hmem with rfl | hrest
        · exact .inr (.inr rfl)
        · exact ih hrest

theorem mem_goTo {next : Nat} (hitem : item ∈ goTo block next) : item = .jump none next := by
  rw [goTo] at hitem
  split at hitem
  · cases hitem
  · exact mem_singleton.mp hitem

/-- An item that may stand among those of a block. -/
def Fits (block : Block) : Item → Prop
  | .instr instr => instr.isControl = false ∨
      (instr = .ret ∧ ∃ op, block.terminator? = some op ∧ op.instruction = .ret)
  | .jump _ s => s ∈ block.exits
  | .enter _ | .openNear _ | .closeNear => True
  | .bytes _ | .padding _ => False

theorem isRegular_instr {instr : Instr} (h : instr.isControl = false) :
    (Item.instr instr).isRegular = true := by
  cases instr with
  | jmp | jcc => cases h
  | _ => rfl

theorem Fits.isRegular (h : Fits block item) : item.isRegular = true := by
  cases item with
  | instr instr =>
    rcases h with hgoesOn | ⟨rfl, -⟩
    · exact isRegular_instr hgoesOn
    · rfl
  | bytes | padding => cases h
  | _ => rfl

/-- Where the items of a block can lead. -/
structure Segment (block : Block) (segment : List Item) : Prop where
  enters : ∃ rest, segment = .enter block.index :: rest
  fits : ∀ item ∈ segment, Fits block item
  closes : Closes segment
  ends : block.index + 1 ∈ block.exits ∨ segment.getLast? = some (.instr .ret) ∨
    ∃ s, segment.getLast? = some (.jump none s)

namespace Target

variable {target : Target} {block : Block} {items : List Item}

/-- The items in front of the operations of a block. -/
def head (target : Target) (block : Block) : List Item := .enter block.index ::
    (if block.index = Graph.entry then target.frame.prologue else []).map .instr

theorem of_block_parts (hblock : target.block block = .ok items) : ∃ lowered after,
      target.operations block (decide (block.index = Graph.entry)) block.operations = .ok lowered ∧
      fallThrough block = .ok after ∧ items = target.head block ++ (lowered ++ after) := by
  rw [Target.block] at hblock
  obtain ⟨_, rest, ⟨⟩, hrest, rfl⟩ := of_sequence_cons hblock
  obtain ⟨_, last, ⟨⟩, hlast, rfl⟩ := of_sequence_cons hrest
  obtain ⟨lowered, after, hlower, hafter, rfl⟩ := of_sequence_cons hlast
  rw [sequence_single] at hafter
  have hhead : target.head block = [.enter block.index] ++
      if block.index = Graph.entry then target.frame.prologue.map .instr else [] := by
    rw [head]
    split <;> rfl
  rw [← append_assoc, ← hhead]
  exact ⟨lowered, after, hlower, hafter, rfl⟩

/-- The terminator, or what stands in for it, comes last. -/
theorem of_block (hblock : target.block block = .ok items) :
    ∃ body exit, target.operations block (decide (block.index = Graph.entry)) block.body = .ok body ∧
      target.exit block = .ok exit ∧ items = target.head block ++ (body ++ exit) := by
  obtain ⟨lowered, after, hlower, hafter, rfl⟩ := of_block_parts hblock
  cases hop : block.terminator? with
  | none =>
    rw [← Block.of_terminator?_none hop] at hlower
    refine ⟨lowered, after, hlower, ?_, rfl⟩
    rwa [exit, hop]
  | some op =>
    rw [(Block.of_terminator? hop).1] at hlower
    obtain ⟨body, exitItems, hbody, hexit, rfl⟩ := of_operations_concat hlower
    rw [fallThrough, hop] at hafter
    cases hafter
    rw [append_nil]
    refine ⟨body, exitItems, hbody, ?_, rfl⟩
    rwa [exit, hop]

theorem exits_of_goesOn (hop : ∀ op ∈ block.terminator?, op.instruction = .branch) :
    block.exits = block.next?.toList := by
  rw [Block.exits]
  cases hend : block.terminator? with
  | none => rfl
  | some op =>
    have hbranch := hop op hend
    dsimp only
    rw [hbranch]

theorem exits_of_decides {op : Operation} {cmp : Comparison} (hop : block.terminator? = some op)
    (hbranch : op.instruction = .branchIf cmp) :
    block.exits = block.taken?.toList ++ block.next?.toList := by
  rw [Block.exits, hop]
  dsimp only
  rw [hbranch]

variable {next : Nat} {frame : Frame} {instr : Instr}

/-- The way on is a jump, unless the following block is meant. -/
theorem ends_goTo (hnext : next ∈ block.exits) (before : List Item) :
    block.index + 1 ∈ block.exits ∨ (before ++ goTo block next).getLast? = some (.instr .ret) ∨
      ∃ s, (before ++ goTo block next).getLast? = some (.jump none s) := by
  rw [goTo]
  split
  next heq => exact .inl (heq ▸ hnext)
  next => exact .inr (.inr ⟨next, getLast?_concat⟩)

theorem isControl_of_mem_prologue (h : instr ∈ frame.prologue) : instr.isControl = false := by
  rw [Frame.prologue, mem_append, mem_append, Frame.adjust] at h
  rcases h with (hpush | hadjust) | hsave
  · obtain ⟨index, -, rfl⟩ := mem_map.mp hpush
    rfl
  · split at hadjust
    · cases hadjust
    · rw [mem_singleton.mp hadjust]
      rfl
  · obtain ⟨slot, -, rfl⟩ := mem_map.mp hsave
    rfl

theorem epilogue_eq (frame : Frame) : frame.epilogue = frame.epilogue.dropLast ++ [.ret] := by
  rw [Frame.epilogue, dropLast_concat]

theorem isTotal_of_mem_epilogue (h : instr ∈ frame.epilogue.dropLast) : instr.isTotal = true := by
  rw [Frame.epilogue, dropLast_concat, mem_append, mem_append, Frame.adjust] at h
  rcases h with (hrestore | hadjust) | hpop
  · obtain ⟨slot, -, rfl⟩ := mem_map.mp hrestore
    rfl
  · split at hadjust
    · cases hadjust
    · rw [mem_singleton.mp hadjust]
      rfl
  · obtain ⟨index, -, rfl⟩ := mem_map.mp hpop
    rfl

theorem fits_goTo (hnext : next ∈ block.exits) : ∀ item ∈ goTo block next, Fits block item := by
  intro item hitem
  rw [mem_goTo hitem]
  exact hnext

theorem fits_instrs {instrs : List Instr} (h : ∀ instr ∈ instrs, instr.isControl = false) :
    ∀ item ∈ instrs.map Item.instr, Fits block item := by
  intro item hitem
  obtain ⟨instr, hinstr, rfl⟩ := mem_map.mp hitem
  exact .inl (h instr hinstr)

theorem Exits.fits (hexits : target.Exits block items) : ∀ item ∈ items, Fits block item := by
  cases hexits with
  | @returned op loads hop hret hloads =>
    rw [forall_mem_append]
    refine ⟨fits_instrs fun instr hinstr => (hloads instr hinstr).2.goesOn, ?_⟩
    rw [epilogue_eq, map_append, forall_mem_append]
    constructor
    · exact fits_instrs fun instr hinstr =>
        Instr.isControl_of_isTotal (isTotal_of_mem_epilogue hinstr)
    · exact forall_mem_singleton.mpr (.inr ⟨rfl, op, hop, hret⟩)
  | goesOn hop hnext =>
    apply fits_goTo
    rw [exits_of_goesOn hop, hnext]
    exact mem_singleton_self _
  | decides hop hbranch hsrcs htaken hnext hcmp hinstrs =>
    have hexits := exits_of_decides hop hbranch
    rw [htaken, hnext] at hexits
    rw [forall_mem_append, forall_mem_cons]
    refine ⟨fits_instrs fun instr hinstr => (hinstrs instr hinstr).2.goesOn, ?_, fits_goTo ?_⟩
    · rw [Fits, hexits]
      exact mem_cons_self
    · rw [hexits]
      exact .tail _ (mem_singleton_self _)

theorem closes_goTo (block : Block) (next : Nat) : Closes (goTo block next) := by
  apply Closes.of_notMem
  intro cond hmem
  cases mem_goTo hmem

theorem Exits.closes (hexits : target.Exits block items) : Closes items := by
  cases hexits with
  | returned => exact (Closes.instrs _).append (Closes.instrs _)
  | goesOn => exact closes_goTo block _
  | decides =>
    exact (Closes.instrs _).append ((closes_goTo block _).cons fun _ => Item.noConfusion)

theorem Exits.ends (hexits : target.Exits block items) (before : List Item) :
    block.index + 1 ∈ block.exits ∨ (before ++ items).getLast? = some (.instr .ret) ∨
      ∃ s, (before ++ items).getLast? = some (.jump none s) := by
  cases hexits with
  | @returned op loads hop hret hloads =>
    right
    left
    rw [epilogue_eq, map_append, ← append_assoc, ← append_assoc]
    exact getLast?_concat
  | goesOn hop hnext =>
    apply ends_goTo
    rw [exits_of_goesOn hop, hnext]
    exact mem_singleton_self _
  | @decides _ _ _ _ _ _ next _ hop hbranch hsrcs htaken hnext hcmp hinstrs =>
    rw [← append_assoc, ← singleton_append, ← append_assoc]
    apply ends_goTo
    rw [exits_of_decides hop hbranch, hnext]
    exact mem_append_right _ (mem_singleton_self _)

/-- A lowered block leads to its exits only. -/
theorem segment_of_block
    (hterms : ∀ op ∈ block.operations.dropLast, op.instruction.isTerminator = false)
    (hblock : target.block block = .ok items) : Segment block items := by
  obtain ⟨body, exitItems, hbody, hexit, rfl⟩ := of_block hblock
  have hstraight := straight_operations (Block.isTerminator_body hterms) hbody
  have hexits := exits_of_exit hexit
  constructor
  · exact ⟨_, rfl⟩
  · rw [forall_mem_append, forall_mem_append, head, forall_mem_cons]
    refine ⟨⟨trivial, fits_instrs fun instr hinstr => ?_⟩, fun item hitem => ?_, hexits.fits⟩
    · split at hinstr
      · exact isControl_of_mem_prologue hinstr
      · cases hinstr
    · rcases hstraight.mem_cases hitem with ⟨instr, rfl, op, -, hperm⟩ | ⟨cond, rfl⟩ | rfl
      · exact .inl hperm.goesOn
      · trivial
      · trivial
  · apply Closes.append _ (hstraight.closes.append hexits.closes)
    exact (Closes.instrs _).cons fun _ => Item.noConfusion
  · rw [← append_assoc]
    exact hexits.ends _

end Target

end Lowering

end GraphJit
