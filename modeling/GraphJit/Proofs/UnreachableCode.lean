import GraphJit.Proofs.CompilationFaults
import GraphJit.Proofs.DeclaredLocals
import GraphJit.Proofs.RebasedHomes

/-! # Unreachable code

Unreachable blocks leave something behind when they are dropped: the locals they name stay in
the table, so the passes give other numbers to the locals they make. The main statement: two
graphs read from text that have the same blocks left compile alike, to the same code and
frame, or both to no code.
-/

namespace GraphJit

open SSA Dominance Validate Rebasing Allocation List GraphJit.Graph

namespace Rebasing

/-! ## Passes that commute with every rebasing -/

/-- The pass that makes the second graph of the first does so over every other table. -/
def Natural {ε : Type} (pass : Graph → Except ε Graph) (graph result : Graph) : Prop :=
  ∀ r : Rebasing, r.floor ≤ graph.locals.count → r.Room result.locals.count →
    pass (r.graph graph) = .ok (r.graph result)

variable {id : Nat} {opts : Options}

theorem type?_table {r : Rebasing} {table : LocalTable} (hid : id < r.base.count) :
    (r.table table).type? id = r.base.type? id := by
  unfold Rebasing.table LocalTable.type?
  rw [getElem?_toArray, getElem?_append_left hid]
  simp

theorem type?_table_add {r : Rebasing} {table : LocalTable} (k : Nat) :
    (r.table table).type? (r.base.count + k) = table.type? (r.floor + k) := by
  unfold Rebasing.table LocalTable.type? LocalTable.count
  rw [getElem?_toArray, getElem?_append_right (by simp)]
  simp

/-- The rebasing that keeps the numbers of the locals so far. -/
def onto (floor : Nat) (base : LocalTable) (hfloor : floor ≤ base.count) : Rebasing where
  floor
  base
  old id := id
  old_lt _ hid := Nat.lt_of_lt_of_le hid hfloor

section Onto

variable {floor : Nat} {base : LocalTable} {hfloor : floor ≤ base.count}

theorem number_onto (id : Nat) : (onto floor base hfloor).number id =
    if id < floor then id else base.count + (id - floor) :=
  rfl

theorem strictMono_onto : StrictMono (onto floor base hfloor).number := by
  intro a b hlt
  rw [number_onto, number_onto]
  split <;> split <;> omega

theorem type?_onto {table : LocalTable} (hold : id < floor → base.type? id = table.type? id) :
    ((onto floor base hfloor).table table).type? ((onto floor base hfloor).number id) =
      table.type? id := by
  rw [number_onto]
  split
  next hid =>
    rw [type?_table (Nat.lt_of_lt_of_le hid hfloor)]
    exact hold hid
  next hid =>
    have hnew := @type?_table_add (onto floor base hfloor) table (id - floor)
    rwa [show (onto floor base hfloor).floor + (id - floor) = id from
      Nat.add_sub_cancel' (Nat.not_lt.mp hid)] at hnew

end Onto

variable {first second : Rebasing} {graph result : Graph}

theorem operation_congr {op : Operation} (hnumber : ∀ opnd ∈ op.operands, ∀ id,
    opnd.localId? = some id → second.number id = first.number id) :
    second.operation op = first.operation op := by
  have hopnd : ∀ opnd ∈ op.operands, second.operand opnd = first.operand opnd := by
    intro opnd hmem
    cases opnd with
    | constant bits type => rfl
    | register reg type => rfl
    | localVar id type => exact congrArg (Operand.localVar · type) (hnumber _ hmem id rfl)
  obtain ⟨hdest, hsrcs⟩ := forall_mem_append.mp hopnd
  unfold Rebasing.operation
  rw [map_congr_left hsrcs]
  cases hop : op.destination with
  | none => rfl
  | some opnd => rw [Option.map_some, Option.map_some, hdest opnd (by simp [hop])]

theorem blocks_congr (hnumber : ∀ id ∈ occurring graph, second.number id = first.number id) :
    graph.blocks.map second.block = graph.blocks.map first.block := by
  refine Array.map_congr_left fun block hblock => congrArg (Block.mk _ · _ _ _ _) ?_
  refine map_congr_left fun op hop => operation_congr fun opnd hopnd id hid => ?_
  have hmem : op ∈ graph.operations := mem_flatMap.mpr ⟨block, by simpa using hblock, hop⟩
  exact hnumber id (mem_occurring_iff.mpr ⟨op, hmem, opnd, hopnd, hid⟩)

theorem number_eq_of_graph_eq (hgraph : second.graph graph = first.graph graph) :
    ∀ id ∈ occurring graph, second.number id = first.number id := by
  have hoccurring := congrArg occurring hgraph
  rw [occurring_graph, occurring_graph] at hoccurring
  exact map_inj_left.mp hoccurring

/-! ## What every natural pass keeps -/

/-- The rebasing that changes no local. -/
def self (table : LocalTable) : Rebasing := onto table.count table (Nat.le_refl _)

theorem number_self (table : LocalTable) (id : Nat) : (self table).number id = id := by
  unfold self
  rw [number_onto]
  split <;> omega

theorem block_self (table : LocalTable) (block : Block) : (self table).block block = block := by
  have hopnd : (self table).operand = id := by
    funext opnd
    cases opnd with
    | constant bits type => rfl
    | register reg type => rfl
    | localVar id type => exact congrArg (Operand.localVar · type) (number_self table id)
  have hoperation : (self table).operation = id := by
    funext op
    simp [Rebasing.operation, hopnd]
  simp [Rebasing.block, hoperation]

theorem graph_self (graph : Graph) : (self graph.locals).graph graph = graph := by
  have hblock : (self graph.locals).block = id := funext (block_self graph.locals)
  have htable : (self graph.locals).table graph.locals = graph.locals := by
    have hdrop : graph.locals.types.toList.drop (self graph.locals).floor = [] :=
      drop_eq_nil_of_le (Nat.le_refl _)
    unfold Rebasing.table
    rw [hdrop, append_nil]
    rfl
  unfold Rebasing.graph
  rw [hblock, htable, Array.map_id]

section Natural

variable {ε : Type} {pass : Graph → Except ε Graph} (hnatural : Natural pass graph result)
include hnatural

/-- The locals of a table stay in place, with their types. -/
theorem Natural.graph_self {table : LocalTable} (hpass : pass graph = .ok result)
    (hfloor : table.count ≤ graph.locals.count)
    (hroom : table.count + result.locals.count ≤ twoPow 32)
    (hgraph : (self table).graph graph = graph) : (self table).graph result = result := by
  have hself := hnatural (self table) hfloor hroom
  rw [hgraph, hpass] at hself
  exact (Except.ok.inj hself).symm

/-- No local of the table so far turns up that did not occur before. -/
theorem Natural.occurring {floor id : Nat} (hfloor : floor ≤ graph.locals.count)
    (hroom : floor + 1 + result.locals.count ≤ twoPow 32) (hid : id < floor)
    (hoccurs : id ∈ occurring result) : id ∈ occurring graph := by
  -- a pass cannot tell the two rebasings apart, which differ on the locals that do not occur
  let base : LocalTable := ⟨Array.replicate (floor + 1) none⟩
  have hbase : base.count = floor + 1 := Array.size_replicate
  let keep := onto floor base (hbase ▸ Nat.le_succ floor)
  let move : Rebasing := {
    floor, base
    old := fun id => if id ∈ Allocation.occurring graph then id else floor
    old_lt := by
      intro id hid
      split <;> omega }
  have hblocks : graph.blocks.map move.block = graph.blocks.map keep.block := by
    refine blocks_congr fun id hid => ?_
    change (if id < floor then if id ∈ Allocation.occurring graph then id else floor else _) =
      if id < floor then id else _
    rw [if_pos hid]
    rfl
  have hgraph : move.graph graph = keep.graph graph := congrArg (Graph.mk · _) hblocks
  have hroom' : base.count + result.locals.count ≤ twoPow 32 := hbase ▸ hroom
  have hresult : move.graph result = keep.graph result := by
    have hmove := hnatural move hfloor hroom'
    rw [hgraph, hnatural keep hfloor hroom'] at hmove
    exact (Except.ok.inj hmove).symm
  by_contra hnone
  have hnumber := number_eq_of_graph_eq hresult id hoccurs
  change (if id < floor then if id ∈ Allocation.occurring graph then id else floor else _) =
    if id < floor then id else _ at hnumber
  rw [if_pos hid, if_pos hid, if_neg hnone] at hnumber
  omega

end Natural

theorem natural_analyze (hanalyze : analyze graph = .ok result) : Natural analyze graph result := by
  intro r _ _
  rw [analyze_graph, hanalyze]
  rfl

theorem natural_construct (hbuild : construct graph = .ok result) :
    Natural construct graph result :=
  fun r => r.construct_graph hbuild

theorem natural_renameRegisters (hrename : graph.renameRegisters = .ok result) :
    Natural Graph.renameRegisters graph result := by
  intro r hfloor hroom
  rw [r.renameRegisters_graph hfloor, hrename]
  · rfl
  · intro answer hanswer
    rw [hrename] at hanswer
    cases hanswer
    exact hroom

theorem natural_withoutRegisters (hrename : graph.withoutRegisters opts = .ok result) :
    Natural (withoutRegisters opts) graph result := by
  intro r hfloor hroom
  unfold withoutRegisters at *
  cases hssa : opts.ssa with
  | false =>
    rw [hssa] at hrename
    exact (congrArg liftM (natural_renameRegisters (of_liftM_eq_ok hrename) r hfloor hroom))
  | true =>
    rw [hssa] at hrename
    exact natural_construct hrename r hfloor hroom

theorem natural_withoutPhis (hremove : graph.withoutPhis = .ok result) :
    Natural withoutPhis graph result := by
  obtain ⟨answer, hanswer, hresult⟩ := of_bind hremove
  cases hresult
  intro r hfloor hroom
  unfold withoutPhis
  rw [r.deconstruct_graph (liftM_eq_ok hanswer) hfloor hroom]
  rfl

/-! ## Stray labels -/

variable (r : Rebasing)

theorem phis_graph (b : Nat) : (r.graph graph).phis b = (graph.phis b).map r.operation := by
  unfold Graph.phis
  rw [blocks_graph, Array.getElem?_map]
  cases graph.blocks[b]? with
  | none => rfl
  | some block =>
    simp only [Option.map_some, operations_block, filter_map]
    rfl

theorem mirrored_graph (hmirror : graph.Mirrored) : (r.graph graph).Mirrored := by
  intro a b
  rw [successors_graph, predecessors_graph]
  exact hmirror a b

theorem phisFormed_graph (hformed : graph.PhisFormed) : (r.graph graph).PhisFormed := by
  intro b op hop
  rw [phis_graph] at hop
  obtain ⟨old, hold, rfl⟩ := mem_map.mp hop
  obtain ⟨hdest, hlabels⟩ := hformed b old hold
  exact ⟨by simpa using hdest, by simpa using hlabels⟩

theorem sizeAfterSplits_graph (n : Nat) :
    (r.graph graph).sizeAfterSplits n = graph.sizeAfterSplits n := by
  induction n with
  | zero => exact r.size_graph graph
  | succ n ih =>
    simp only [sizeAfterSplits, ih, criticalEdges, phis_graph, predecessors_graph,
      successors_graph, ne_eq, map_eq_nil_iff]

theorem strayCopyAt_graph_iff (b : Nat) : (r.graph graph).StrayCopyAt b ↔ graph.StrayCopyAt b := by
  simp [StrayCopyAt, phis_graph, sizeAfterSplits_graph]

/-! ## The passes before allocation -/

variable {r} (hfloor : r.floor ≤ graph.locals.count)
include hfloor

theorem alike_withoutPhis (hmirror : graph.Mirrored) (hformed : graph.PhisFormed)
    (hroom : ∀ result, graph.withoutPhis = .ok result → r.Room result.locals.count) :
    Alike (fun first second => r.graph first = second) graph.withoutPhis
      (r.graph graph).withoutPhis := by
  rcases deconstruct_cases hmirror hformed with ⟨answer, hanswer, -⟩ | ⟨⟨cause, hcause⟩, b, hstray⟩
  · have hremove : graph.withoutPhis = .ok answer.1 := by
      rw [withoutPhis, hanswer]
      rfl
    rw [hremove, natural_withoutPhis hremove r hfloor (hroom _ hremove)]
    exact .ok rfl
  · rcases deconstruct_cases (r.mirrored_graph hmirror) (r.phisFormed_graph hformed) with
      ⟨-, -, hnone⟩ | ⟨⟨cause', hcause'⟩, -⟩
    · exact absurd ⟨b, (r.strayCopyAt_graph_iff b).mpr hstray⟩ hnone
    · rw [withoutPhis, withoutPhis, hcause, hcause']
      exact .fault cause cause'

omit hfloor in
/-- Once the variables are known only faults are left. -/
theorem construct_ne_error {vars : List GuestVariable}
    (hvars : GuestVariable.collect graph = .ok vars) (cause : CompileError) :
    construct graph ≠ .error (.error cause) := by
  intro hfails
  rw [construct, hvars] at hfails
  change (if vars.isEmpty = true then _ else (liftM (renameGraph vars (.ofGraph graph)
    (startOf (insertPhis graph vars (.ofGraph graph)).1)) >>= _)) = _ at hfails
  split at hfails
  next => cases hfails
  next =>
    cases hrun : renameGraph vars (.ofGraph graph)
      (startOf (insertPhis graph vars (.ofGraph graph)).1) with
    | error fault =>
      rw [hrun] at hfails
      cases hfails
    | ok answer =>
      rw [hrun] at hfails
      cases hfails

theorem alike_construct (hprep : Prepared graph)
    (hroom : ∀ result, construct graph = .ok result → r.Room result.locals.count) :
    Alike (fun first second => r.graph first = second) (construct graph)
      (construct (r.graph graph)) := by
  cases hvars : GuestVariable.collect graph with
  | error cause =>
    have hvars' := (r.collect_graph graph).trans hvars
    rw [construct, construct, hvars, hvars']
    exact .error rfl
  | ok vars =>
    rcases exists_construct hprep with ⟨_, _, _, hfails, -⟩ | ⟨result, hresult, -⟩
    · exact absurd hfails (construct_ne_error hvars _)
    · rw [hresult, natural_construct hresult r hfloor (hroom _ hresult)]
      exact .ok rfl

theorem alike_renameRegisters
    (hroom : ∀ result, graph.renameRegisters = .ok result → r.Room result.locals.count) :
    Alike (fun first second => r.graph first = second) (liftM graph.renameRegisters)
      (liftM (r.graph graph).renameRegisters) := by
  rw [r.renameRegisters_graph hfloor hroom]
  cases graph.renameRegisters with
  | error cause => exact .error rfl
  | ok result => exact .ok rfl

theorem alike_intoLocals (hprep : Prepared graph) (hinj : Function.Injective r.number)
    (hroom : ∀ result, graph.withoutRegisters opts = .ok result → r.Room result.locals.count) :
    Alike (fun first second => r.graph first = second) (graph.intoLocals opts).outcome
      ((r.graph graph).intoLocals opts).outcome := by
  unfold intoLocals
  unfold withoutRegisters at hroom
  cases hssa : opts.ssa with
  | false =>
    rw [hssa] at hroom
    exact alike_renameRegisters hfloor fun result hresult => hroom result (hresult ▸ rfl)
  | true =>
    rw [hssa] at hroom
    refine (alike_construct hfloor hprep hroom).bindTo fun constructed => ?_
    exact (alike_verify hinj constructed).bind fun _ _ _ => .ok rfl

omit hfloor

/-! ## The locals of a table -/

/-- The locals of a table are still there in a graph made of another one. Only those that
occurred before occur in it. -/
structure Rests (table : LocalTable) (graph result : Graph) : Prop where
  self : (self table).graph result = result
  occurring : ∀ id < table.count, id ∈ occurring result → id ∈ occurring graph

namespace Rests

variable {table : LocalTable} {mid : Graph}

theorem start (graph : Graph) : Rests graph.locals graph graph :=
  ⟨graph_self graph, fun _ _ hid => hid⟩

theorem count_le (hrests : Rests table graph result) : table.count ≤ result.locals.count := by
  have hlocals : (Rebasing.self table).table result.locals = result.locals :=
    congrArg Graph.locals hrests.self
  have hcount := (Rebasing.self table).count_table result.locals
  rw [hlocals] at hcount
  exact hcount ▸ Nat.le_add_right ..

theorem type?_eq (hrests : Rests table graph result) (hid : id < table.count) :
    result.locals.type? id = table.type? id := by
  have hlocals : (Rebasing.self table).table result.locals = result.locals :=
    congrArg Graph.locals hrests.self
  rw [← hlocals]
  exact type?_table hid

theorem pass {ε : Type} {pass : Graph → Except ε Graph} (hrests : Rests table graph mid)
    (hnatural : Natural pass mid result) (hpass : pass mid = .ok result)
    (hroom : table.count + 1 + result.locals.count ≤ twoPow 32) : Rests table graph result where
  self := hnatural.graph_self hpass hrests.count_le (by omega) hrests.self
  occurring id hid hoccurs :=
    hrests.occurring id hid (hnatural.occurring hrests.count_le hroom hid hoccurs)

end Rests

end Rebasing

/-! ## Graphs with the same blocks left -/

variable {graph pruned : Graph} {sig : Signature} {opts : Options}

theorem mem_operands_of_keepOperation {order : List Nat} {op : Operation} {opnd : Operand}
    (hopnd : opnd ∈ (keepOperation order op).operands) : opnd ∈ op.operands := by
  unfold keepOperation at hopnd
  split at hopnd
  next =>
    rcases mem_append.mp hopnd with hmem | hmem
    · exact mem_append_left _ hmem
    · obtain ⟨input, hinput, rfl⟩ := mem_map.mp hmem
      obtain ⟨old, hold, hkept⟩ := mem_filterMap.mp hinput
      obtain ⟨label, -, rfl⟩ := Option.map_eq_some_iff.mp hkept
      exact mem_append_right _ (of_mem_zip hold).2
  next => exact hopnd

variable {removed id : Nat}

/-- Dropping blocks keeps the table, and the operands that are left were there before. -/
theorem localsDeclared_of_removeUnreachable (hmirror : graph.Mirrored) (hidx : graph.Indexed)
    (hsize : 0 < graph.size) (hremove : graph.removeUnreachable = .ok (pruned, removed))
    (hdecl : graph.LocalsDeclared) : pruned.locals = graph.locals ∧ pruned.LocalsDeclared := by
  obtain ⟨order, -, hprunes⟩ := exists_prunes hidx hmirror hsize hremove
  refine ⟨hprunes.locals, fun op hop opnd hopnd => ?_⟩
  rw [hprunes.locals]
  obtain ⟨i, new, hnew, hmem⟩ := mem_operations_iff.mp hop
  obtain ⟨b, block, -, hblock, -, hkeeps⟩ := hprunes.exists_origin hnew
  rcases hkeeps.operations with hsame | hmapped
  · rw [hsame] at hmem
    exact hdecl op (mem_operations hblock hmem) opnd hopnd
  · rw [hmapped] at hmem
    obtain ⟨old, hold, rfl⟩ := mem_map.mp hmem
    exact hdecl old (mem_operations hblock hold) opnd (mem_operands_of_keepOperation hopnd)

/-- A graph that has passed the checks, and what is left of it without unreachable blocks. -/
structure Remains (sig : Signature) (graph pruned : Graph) : Prop where
  mirrored : graph.Mirrored
  indexed : graph.Indexed
  prepare : graph.prepare sig = .ok pruned
  locals : pruned.locals = graph.locals
  declared : pruned.LocalsDeclared

theorem remains_of_parse {text : String} (hparse : Graph.parse text = .ok graph)
    (hvalid : graph.validate sig = .ok ())
    (hremove : graph.removeUnreachable = .ok (pruned, removed)) :
    Remains sig graph pruned := by
  obtain ⟨hmirror, hidx⟩ := mirrored_and_indexed_of_parse hparse
  obtain ⟨hlocals, hdecl⟩ := localsDeclared_of_removeUnreachable hmirror hidx
    (of_validate hvalid).1 hremove (localsDeclared_of_parse hparse)
  refine ⟨hmirror, hidx, ?_, hlocals, hdecl⟩
  rw [Graph.prepare, hvalid, hremove]
  rfl

/-- There are fewer than 2 ^ 28 locals before and after every pass. -/
structure Graph.FewLocals (opts : Options) (sig : Signature) (graph : Graph) : Prop where
  source : graph.locals.count < 2 ^ 28
  renamed : ∀ analyzed renamed, graph.analyzed sig = .ok analyzed →
    analyzed.withoutRegisters opts = .ok renamed → renamed.locals.count < 2 ^ 28
  lowered : ∀ lowered, graph.lowered opts sig = .ok lowered → lowered.locals.count < 2 ^ 28

theorem lt_count_of_mem_occurring (hrem : Remains sig graph pruned)
    (hid : id ∈ occurring pruned) : id < graph.locals.count := by
  obtain ⟨op, hop, opnd, hopnd, hlocal⟩ := mem_occurring_iff.mp hid
  have htype := hrem.declared op hop opnd hopnd id hlocal
  rw [hrem.locals] at htype
  exact lt_count_of_type? htype

theorem locals_of_analyze {result : Graph} (hanalyze : analyze graph = .ok result) :
    result.locals = graph.locals := by
  obtain ⟨idoms, -, hresult⟩ := of_bind hanalyze
  cases hresult
  rfl

section Shared

variable {first second rest other : Graph} (hfirst : Remains sig first rest)
  (hsecond : Remains sig second other) (hblocks : other.blocks = rest.blocks)
  (hle : first.locals.count ≤ second.locals.count)
include hfirst hsecond hblocks

theorem graph_onto_eq : (onto first.locals.count second.locals hle).graph rest = other := by
  have hmap : rest.blocks.map (onto first.locals.count second.locals hle).block = rest.blocks := by
    have hself : (self first.locals).block = id := funext (block_self first.locals)
    rw [@blocks_congr (self first.locals) _ rest, hself, Array.map_id]
    intro id hid
    rw [number_self, number_onto, if_pos (lt_count_of_mem_occurring hfirst hid)]
  have htable : (onto first.locals.count second.locals hle).table rest.locals = other.locals := by
    have hdrop : first.locals.types.toList.drop first.locals.count = [] :=
      drop_eq_nil_of_le (Nat.le_refl _)
    rw [hfirst.locals, hsecond.locals]
    unfold Rebasing.table onto
    rw [hdrop, append_nil]
  unfold Rebasing.graph
  rw [hmap, htable, ← hblocks]

/-- Locals that occur in the blocks that are left have the same type in both tables. -/
theorem type?_eq_of_mem_occurring (hid : id ∈ occurring rest) :
    second.locals.type? id = first.locals.type? id := by
  obtain ⟨op, hop, opnd, hopnd, hlocal⟩ := mem_occurring_iff.mp hid
  have hop' : op ∈ other.operations := by
    unfold Graph.operations
    rwa [hblocks]
  rw [← hfirst.locals, ← hsecond.locals, hfirst.declared op hop opnd hopnd id hlocal,
    hsecond.declared op hop' opnd hopnd id hlocal]

theorem exists_analyzed (hcount : first.locals.count < 2 ^ 28) :
    ∃ analyzed, first.analyzed sig = .ok analyzed ∧
      second.analyzed sig = .ok ((onto first.locals.count second.locals hle).graph analyzed) ∧
      Prepared analyzed ∧ Rests first.locals rest analyzed := by
  obtain ⟨analyzed, hanalyze, -, hprep⟩ :=
    exists_prepared hfirst.mirrored hfirst.indexed hfirst.prepare
  refine ⟨analyzed, ?_, ?_, hprep, ?_⟩
  · rw [Graph.analyzed, hfirst.prepare]
    change (liftM (analyze rest) : Outcome Graph) = _
    rw [hanalyze]
    rfl
  · rw [Graph.analyzed, hsecond.prepare]
    change (liftM (analyze other) : Outcome Graph) = _
    rw [← graph_onto_eq hfirst hsecond hblocks hle, analyze_graph, hanalyze]
    rfl
  · have hword : twoPow 32 = 2 ^ 32 := rfl
    refine (hfirst.locals ▸ Rests.start rest).pass (natural_analyze hanalyze) hanalyze ?_
    rw [locals_of_analyze hanalyze, hfirst.locals]
    omega

/-- The graphs that code is generated for are the same over the two tables. -/
theorem alike_lowered (hfew : first.FewLocals opts sig) (hsrc : second.locals.count < 2 ^ 28) :
    Alike (fun lowered lowered' => Rests first.locals rest lowered ∧
        (onto first.locals.count second.locals hle).graph lowered = lowered')
      (first.lowered opts sig) (second.lowered opts sig) := by
  have hroom {count : Nat} (hcount : count < 2 ^ 28) : first.locals.count + 1 + count ≤ twoPow 32 ∧
        (onto first.locals.count second.locals hle).Room count := by
    have hword : twoPow 32 = 2 ^ 32 := rfl
    change _ ∧ second.locals.count + count ≤ twoPow 32
    omega
  obtain ⟨analyzed, hdoms, hdoms', hprep, hrests⟩ :=
    exists_analyzed hfirst hsecond hblocks hle hfew.source
  have hnamed := fun renamed => hfew.renamed analyzed renamed hdoms
  have hlower := hfew.lowered
  rw [lowered_eq hdoms] at hlower ⊢
  rw [lowered_eq hdoms']
  refine (alike_intoLocals hrests.count_le hprep strictMono_onto.injective
    fun renamed h => (hroom (hnamed renamed h)).2).attach.bind ?_
  rintro renamed _ ⟨hlocals, rfl⟩
  rw [hlocals] at hlower
  have hpass := withoutRegisters_of_intoLocals hlocals
  have hmiddle := hrests.pass (natural_withoutRegisters hpass) hpass (hroom (hnamed _ hpass)).1
  have hlike := resembles_of_intoLocals hprep hlocals
  have hdone := alike_withoutPhis hmiddle.count_le (hlike.analyzed hprep.analyzed).mirrored
    (hlike.phisFormed hprep) fun lowered h => (hroom (hlower lowered h)).2
  refine hdone.attach.mono fun lowered _ hboth => ⟨?_, hboth.2⟩
  exact hmiddle.pass (natural_withoutPhis hboth.1) hboth.1 (hroom (hlower _ hboth.1)).1

include hle in
theorem alike_compile (hfew : first.FewLocals opts sig)
    (hsrc : second.locals.count < 2 ^ 28) : Alike Eq (first.compile opts sig).outcome
      (second.compile opts sig).outcome := by
  rw [outcome_compile, outcome_compile]
  refine (alike_lowered hfirst hsecond hblocks hle hfew hsrc).bind ?_
  rintro lowered _ ⟨hrests, rfl⟩
  refine (alike_greedy strictMono_onto hrests.count_le none opts.convention fun id hid => ?_).bind
    fun _ _ hsame => alike_generate lowered opts sig.arguments hsame
  refine type?_onto fun hold => ?_
  rw [type?_eq_of_mem_occurring hfirst hsecond hblocks (hrests.occurring id hold hid),
    hrests.type?_eq hold]

end Shared

/-- Unreachable code never influences the output: graphs read from text that pass the checks and
have the same blocks left compile to the same code and frame, or both fail in the same way. -/
theorem compile_alike_of_same_remains {opts : Options} {sig : Signature}
    {text text' : String} {first second rest other : Graph} {removed removed' : Nat}
    (hparse : Graph.parse text = .ok first) (hparse' : Graph.parse text' = .ok second)
    (hvalid : first.validate sig = .ok ()) (hvalid' : second.validate sig = .ok ())
    (hremove : first.removeUnreachable = .ok (rest, removed))
    (hremove' : second.removeUnreachable = .ok (other, removed'))
    (hblocks : other.blocks = rest.blocks) (hfew : first.FewLocals opts sig)
    (hfew' : second.FewLocals opts sig) :
    Alike Eq (first.compile opts sig).outcome
      (second.compile opts sig).outcome := by
  have hfirst := remains_of_parse hparse hvalid hremove
  have hsecond := remains_of_parse hparse' hvalid' hremove'
  rcases Nat.le_total first.locals.count second.locals.count with hle | hle
  · exact alike_compile hfirst hsecond hblocks hle hfew hfew'.source
  · exact (alike_compile hsecond hfirst hblocks.symm hle hfew' hfew.source).symm

/-- The same loop without the way into it, and another unreachable block with a local. -/
def spareText : String := "block 0 -> 1\n  r0:i64 = load_arg 0\n  br\n" ++
  "block 1 -> 1, 2\n  l0:i64 = phi 1:i64 @0, l0:i64 @1\n" ++
  "  r0:i64 = sub r0:i64, l0:i64\n  br_if.ne r0:i64, 0:i64\n" ++
  "block 2\n  ret r0:i64\nblock 3 -> 2\n  l4:f32 = copy l4:f32\n  br\n"

def loopInputs : List (Nat × Operand) := [(0, .constant 1 .i64), (1, .localVar 0 .i64)]

def spareGraph : Graph where
  blocks := #[
    loopHead,
    loopBody loopInputs,
    { loopExit with predecessors := [1, 3] },
    { index := 3
      operations := [.copy (.localVar 4 .f32) (.localVar 4 .f32), .branch]
      successors := [2] }]
  locals := ⟨#[some .i64, none, none, none, some .f32]⟩

/-- What is left of the loop. -/
def loopRest (locals : LocalTable) : Graph where
  blocks := #[loopHead, loopBody loopInputs, loopExit]
  locals

/-- Counting the locals of the annotated graph and of what is made of it is enough. -/
theorem fewLocals_of_counts {graph analyzed : Graph} {opts : Options} {sig : Signature}
    {renamed lowered : Nat} (hdoms : graph.analyzed sig = .ok analyzed)
    (hnamed : (analyzed.withoutRegisters opts).map (·.locals.count) = .ok renamed)
    (hlower : ((analyzed.intoLocals opts).outcome >>= withoutPhis).map
      (·.locals.count) = .ok lowered)
    (hcounts : graph.locals.count < 2 ^ 28 ∧ renamed < 2 ^ 28 ∧ lowered < 2 ^ 28) :
    graph.FewLocals opts sig := by
  refine ⟨hcounts.1, fun other result hother hresult => ?_, fun result hresult => ?_⟩
  · rw [hdoms] at hother
    cases hother
    rw [hresult] at hnamed
    exact (Except.ok.inj hnamed).trans_lt hcounts.2.1
  · rw [lowered_eq hdoms] at hresult
    rw [hresult] at hlower
    exact (Except.ok.inj hlower).trans_lt hcounts.2.2

theorem compile_alike_of_same_remains_loop :
    Graph.parse loopText = .ok loopGraph ∧ Graph.parse spareText = .ok spareGraph ∧
      loopGraph.FewLocals {} ⟨[.i64], some .i64⟩ ∧ spareGraph.FewLocals {} ⟨[.i64], some .i64⟩ ∧
      Alike Eq (loopGraph.compile {} ⟨[.i64], some .i64⟩).outcome
        (spareGraph.compile {} ⟨[.i64], some .i64⟩).outcome := by
  have hparse := parse_loopText
  have hparse' : Graph.parse spareText = .ok spareGraph := by decide +kernel
  have hvalid : loopGraph.validate ⟨[.i64], some .i64⟩ = .ok () := by cbv
  have hvalid' : spareGraph.validate ⟨[.i64], some .i64⟩ = .ok () := by cbv
  have hremove : loopGraph.removeUnreachable = .ok (loopRest loopGraph.locals, 1) := by cbv
  have hremove' : spareGraph.removeUnreachable = .ok (loopRest spareGraph.locals, 1) := by cbv
  have hfew : loopGraph.FewLocals {} ⟨[.i64], some .i64⟩ :=
    @fewLocals_of_counts _ analyzedLoop _ _ 4 6 (by cbv) (by decide +kernel) (by decide +kernel)
      (by decide)
  have hfew' : spareGraph.FewLocals {} ⟨[.i64], some .i64⟩ :=
    @fewLocals_of_counts _ { analyzedLoop with locals := spareGraph.locals } _ _ 8 10 (by cbv)
      (by decide +kernel) (by decide +kernel) (by decide)
  exact ⟨hparse, hparse', hfew, hfew', compile_alike_of_same_remains hparse hparse' hvalid hvalid'
    hremove hremove' rfl hfew hfew'⟩

end GraphJit
