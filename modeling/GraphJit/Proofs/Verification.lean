import GraphJit.Proofs.DominatorTree
import GraphJit.Proofs.Results
import GraphJit.SSA.Verify

/-! # What verification accepts

Graphs over locals with a single definition each, which lies on every path to its
uses. A phi uses its inputs at the end of the predecessors.
-/

namespace GraphJit.SSA

open GraphJit.Graph Dominance DominatorTree List Operand

variable {graph : Graph}

/-- The locals that operations define, in order. -/
def definedLocals (ops : List Operation) : List Nat :=
  ops.filterMap fun op => op.destination.bind localId?

theorem definedLocals_append (first second : List Operation) :
    definedLocals (first ++ second) = definedLocals first ++ definedLocals second :=
  filterMap_append

/-- The block defines the local. -/
def DefinedIn (graph : Graph) (id b : Nat) : Prop :=
  ∃ block, graph.blocks[b]? = some block ∧ id ∈ definedLocals block.operations

/-- Each local has a single definition, in front of its uses in the same block or in a
block that lies on every path to them. -/
structure SingleAssignment (graph : Graph) : Prop where
  once : (definedLocals graph.operations).Nodup
  uses : ∀ ⦃b : Nat⦄ ⦃block : Block⦄ ⦃before after : List Operation⦄ ⦃op : Operation⦄,
    graph.blocks[b]? = some block → block.operations = before ++ op :: after →
    op.isPhi = false → ∀ src ∈ op.sources, ∀ id, src.localId? = some id →
      id ∈ definedLocals before ∨ ∃ c ≠ b, graph.Dominates c b ∧ DefinedIn graph id c
  inputs : ∀ ⦃b : Nat⦄ ⦃block : Block⦄, graph.blocks[b]? = some block →
    ∀ op ∈ block.operations, op.isPhi → ∀ input ∈ op.inputs, ∀ id,
      input.2.localId? = some id → ∃ c, graph.Dominates c input.1 ∧ DefinedIn graph id c

/-! ## Definitions -/

/-- The entry that an operation makes in the table of definitions. -/
def definitionAt (b : Nat) (op : Operation) (pos : Nat) : Option (Nat × Nat × Nat) :=
  (op.destination.bind localId?).map fun id => (id, b, pos)

/-- All definitions, the latest first. -/
def definitionsOf (graph : Graph) : Definitions := (graph.blocks.toList.flatMap fun block =>
    block.operations.zipIdx.filterMap fun (op, pos) =>
      definitionAt block.index op pos).reverse

theorem map_fst_definitionAt (b first : Nat) (ops : List Operation) :
    ((ops.zipIdx first).filterMap fun (op, pos) => definitionAt b op pos).map Prod.fst =
      definedLocals ops := by
  induction ops generalizing first with
  | nil => rfl
  | cons op rest ih =>
    rw [zipIdx_cons, definedLocals, filterMap_cons, filterMap_cons]
    cases hid : op.destination.bind localId? with
    | none => simpa [definitionAt, definedLocals, hid] using ih (first + 1)
    | some id => simpa [definitionAt, definedLocals, hid] using ih (first + 1)

theorem definedLocals_operations (graph : Graph) : definedLocals graph.operations =
      graph.blocks.toList.flatMap fun block => definedLocals block.operations := by
  rw [Graph.operations, definedLocals, filterMap_flatMap]
  rfl

theorem map_fst_definitionsOf (graph : Graph) :
    (definitionsOf graph).map Prod.fst = (definedLocals graph.operations).reverse := by
  rw [definitionsOf, map_reverse, map_flatMap, definedLocals_operations]
  simp only [map_fst_definitionAt]

variable {pos b id : Nat} {op : Operation} {defs : Definitions} {ops : List Operation}

/-- A definition is noted if it is the first of a local. -/
theorem noteDefinition_eq_ok_iff {next : Definitions} :
    noteDefinition b defs op pos = .ok next ↔
      next = (definitionAt b op pos).toList ++ defs ∧ op.destination.bind register? = none ∧
        ∀ id, op.destination.bind localId? = some id → id ∉ defs.map Prod.fst := by
  unfold noteDefinition definitionAt
  cases op.destination with
  | none => simp [pure, Except.pure, eq_comm]
  | some opnd =>
    cases opnd with
    | constant bits type => simp [pure, Except.pure, eq_comm, localId?, register?]
    | register reg type => simp [violation, register?]
    | localVar id type =>
      have hnew : (defs.lookup id).isSome ↔ id ∈ defs.map Prod.fst := by
        simp [lookup_isSome_iff]
      by_cases hmem : id ∈ defs.map Prod.fst
      · simp only [hnew.mpr hmem, if_true]
        exact ⟨by simp [violation, bind, Except.bind], fun h => absurd hmem (h.2.2 id rfl)⟩
      · simp only [hnew, hmem, if_false]
        refine ⟨fun h => ⟨(Except.ok.inj h).symm, rfl, fun _ h => Option.some.inj h ▸ hmem⟩, ?_⟩
        rintro ⟨rfl, -⟩
        rfl

theorem foldlM_noteDefinition_eq_ok_iff {sites : List (Nat × Operation × Nat)} {last : Definitions}
    (hnodup : (defs.map Prod.fst).Nodup) :
    sites.foldlM (fun defs (b, op, pos) => noteDefinition b defs op pos) defs = .ok last ↔
      last = (sites.filterMap fun (b, op, pos) => definitionAt b op pos).reverse ++ defs ∧
        (∀ site ∈ sites, site.2.1.destination.bind register? = none) ∧
        (last.map Prod.fst).Nodup := by
  induction sites generalizing defs with
  | nil =>
    rw [foldlM_nil]
    constructor
    · rintro ⟨⟩
      exact ⟨rfl, by simp, hnodup⟩
    · rintro ⟨rfl, -⟩
      rfl
  | cons site rest ih =>
    obtain ⟨b, op, pos⟩ := site
    have hcons : ((((b, op, pos) :: rest).filterMap fun (b, op, pos) =>
        definitionAt b op pos).reverse ++ defs) =
        (rest.filterMap fun (b, op, pos) => definitionAt b op pos).reverse ++
          ((definitionAt b op pos).toList ++ defs) := by
      cases hat : definitionAt b op pos <;> simp [hat]
    -- The entry keeps the locals apart exactly if it is new.
    have hnew : (((definitionAt b op pos).toList ++ defs).map Prod.fst).Nodup ↔
        ∀ id, op.destination.bind localId? = some id → id ∉ defs.map Prod.fst := by
      cases hid : op.destination.bind localId? <;> simp [definitionAt, hid, hnodup]
    rw [foldlM_cons, bind_eq_ok, hcons, forall_mem_cons]
    simp only [noteDefinition_eq_ok_iff, ← hnew]
    constructor
    · rintro ⟨_, ⟨rfl, hreg, hfirst⟩, hrest⟩
      obtain ⟨hlast, hregs, hall⟩ := (ih hfirst).mp hrest
      exact ⟨hlast, ⟨hreg, hregs⟩, hall⟩
    · rintro ⟨rfl, ⟨hreg, hregs⟩, hall⟩
      have hfirst := (map_append ▸ hall).of_append_right
      exact ⟨_, ⟨rfl, hreg, hfirst⟩, (ih hfirst).mpr ⟨rfl, hregs, hall⟩⟩

theorem foldlM_flatMap {α β σ ε : Type} {f : σ → β → Except ε σ} {g : α → List β} {entries : List α}
    {start : σ} : (entries.flatMap g).foldlM f start =
      entries.foldlM (fun state entry => (g entry).foldlM f state) start := by
  induction entries generalizing start with
  | nil => rfl
  | cons entry rest ih =>
    rw [flatMap_cons, foldlM_append, foldlM_cons]
    simp only [ih]

/-- Collecting definitions only succeeds if no local has two of them. -/
theorem noteDefinitions_eq_ok_iff : noteDefinitions graph = .ok defs ↔ defs = definitionsOf graph ∧
        (∀ op ∈ graph.operations, op.destination.bind register? = none) ∧
        (definedLocals graph.operations).Nodup := by
  let sites := graph.blocks.toList.flatMap fun block =>
    block.operations.zipIdx.map fun (op, pos) => (block.index, op, pos)
  have hnote : noteDefinitions graph = sites.foldlM
      (fun defs (b, op, pos) => noteDefinition b defs op pos) [] := by
    simp only [sites, foldlM_flatMap, foldlM_map]
    rfl
  have hsites : graph.operations = sites.map fun site => site.2.1 := by
    simp [sites, Graph.operations, map_flatMap, Function.comp_def]
  have hall : (sites.filterMap fun (b, op, pos) => definitionAt b op pos).reverse =
      definitionsOf graph := by
    simp only [sites, filterMap_flatMap, filterMap_map]
    rfl
  rw [hnote, foldlM_noteDefinition_eq_ok_iff (by simp), append_nil, hall, hsites, forall_mem_map, ← hsites]
  refine and_congr_right ?_
  rintro rfl
  rw [map_fst_definitionsOf, nodup_reverse]

/-- A definition is found where it stands. -/
theorem lookup_definitionsOf_iff (honce : (definedLocals graph.operations).Nodup)
    (hidx : graph.Indexed) : (definitionsOf graph).lookup id = some (b, pos) ↔
      ∃ block op, graph.blocks[b]? = some block ∧ block.operations[pos]? = some op ∧
        op.destination.bind localId? = some id := by
  have hnodup : ((definitionsOf graph).map Prod.fst).Nodup := by
    rw [map_fst_definitionsOf]
    exact nodup_reverse.mpr honce
  rw [lookup_eq_some_iff_mem hnodup, definitionsOf, mem_reverse, mem_flatMap]
  constructor
  · rintro ⟨block, hblock, hsite⟩
    obtain ⟨⟨op, found⟩, hop, hat⟩ := mem_filterMap.mp hsite
    obtain ⟨defined, hdef, hentry⟩ := Option.map_eq_some_iff.mp hat
    cases hentry
    obtain ⟨b, hb⟩ := mem_blocks_iff.mp hblock
    have hindex : block.index = b := hidx hb
    exact ⟨block, op, hindex ▸ hb, mk_mem_zipIdx_iff_getElem?.mp hop, hdef⟩
  · rintro ⟨block, op, hblock, hop, hid⟩
    refine ⟨block, mem_blocks_iff.mpr ⟨b, hblock⟩, mem_filterMap.mpr ⟨(op, pos), ?_, ?_⟩⟩
    · exact mk_mem_zipIdx_iff_getElem?.mpr hop
    · have hindex : block.index = b := hidx hblock
      simp only [definitionAt, hid, Option.map_some, hindex]

/-! ## Uses -/

theorem mem_definedLocals_iff :
    id ∈ definedLocals ops ↔ ∃ (pos : Nat) (op : Operation), ops[pos]? = some op ∧
      op.destination.bind localId? = some id := by
  rw [definedLocals, mem_filterMap]
  simp only [mem_iff_getElem?]
  exact ⟨fun ⟨op, ⟨pos, hop⟩, hid⟩ => ⟨pos, op, hop, hid⟩,
    fun ⟨pos, op, hop, hid⟩ => ⟨op, ⟨pos, hop⟩, hid⟩⟩

/-- What is asked of the operands and phis of a graph besides single assignment. -/
structure OverLocals (graph : Graph) : Prop where
  registers : ∀ op ∈ graph.operations, ∀ opnd ∈ op.operands, opnd.register? = none
  labels : ∀ ⦃b : Nat⦄ ⦃block : Block⦄, graph.blocks[b]? = some block → ∀ op ∈ block.operations,
    op.isPhi → op.labels = block.predecessors ∧ op.sources.length = op.labels.length

/-- Block `c` defines the local, and does so ahead of the use. -/
def Supplies (graph : Graph) (b : Nat) (before : List Operation) (op : Operation) (k id c : Nat) :
    Prop :=
  DefinedIn graph id c ∧ if op.isPhi then ∃ label < graph.size, op.labels[k]? = some label ∧
      (graph.Reachable label → graph.Dominates c label)
    else c = b ∧ id ∈ definedLocals before ∨ c ≠ b ∧ graph.Dominates c b

theorem checkSource_localVar_iff {tree : DominatorTree} {k : Nat} {type : ValueType} :
    checkSource tree defs b pos op (.localVar id type) k = .ok () ↔
      ∃ defn, defs.lookup id = some defn ∧ reaches tree b pos op k defn = .ok true := by
  cases hlookup : defs.lookup id with
  | none => simp [checkSource, hlookup, violation]
  | some defn =>
    simp only [checkSource, hlookup, Option.some.injEq, exists_eq_left']
    rcases reaches tree b pos op k defn with cause | reached | reached
    all_goals
      constructor <;> intro h <;> first | rfl | cases h

section

variable (hdoms : Analyzed graph)
include hdoms

theorem dominates_ofGraph_iff {c : Nat} :
    (ofGraph graph).dominates c b ↔ graph.Reachable b ∧ graph.Dominates c b := by
  rw [dominates_iff hdoms]
  exact and_congr_right fun hreach => hdoms.immediate.above_iff hreach

theorem reaches_eq_ok_iff (hreach : graph.Reachable b) {c j k : Nat} :
    reaches (ofGraph graph) b pos op k (c, j) = .ok true ↔
      if op.isPhi then ∃ label < graph.size, op.labels[k]? = some label ∧
          (graph.Reachable label → graph.Dominates c label)
        else c = b ∧ j < pos ∨ c ≠ b ∧ graph.Dominates c b := by
  cases hphi : op.isPhi with
  | false =>
    by_cases hsame : c = b
    · simp [reaches, hphi, hsame]
    · simp [reaches, hphi, hsame, dominates_ofGraph_iff hdoms, hreach]
  | true =>
    cases hlabel : op.labels[k]? with
    | none => simp [reaches, hphi, hlabel]
    | some label =>
      rcases Nat.lt_or_ge label graph.size with hlt | hge
      · obtain ⟨entered, hmark⟩ : ∃ entered, (ofGraph graph).enter[label]? = some entered :=
          ⟨_, Array.getElem?_eq_getElem (size_enter graph ▸ hlt)⟩
        have hentered : (ofGraph graph).isReachable label = entered.isSome := by
          rw [isReachable, entered?, hmark]
          rfl
        have hdom := dominates_ofGraph_iff hdoms (b := label) (c := c)
        by_cases hlive : graph.Reachable label
        · have := (isReachable_iff hdoms).mpr hlive
          simp [reaches, hphi, hlabel, hmark, hlt, ← hentered, this, hdom, hlive]
        · have : (ofGraph graph).isReachable label = false := by
            rwa [← Bool.not_eq_true, isReachable_iff hdoms]
          simp [reaches, hphi, hlabel, hmark, hlt, ← hentered, this, hlive]
      · have hmark : (ofGraph graph).enter[label]? = none :=
          Array.getElem?_eq_none (size_enter graph ▸ hge)
        simp [reaches, hphi, hlabel, hmark, Nat.not_lt.mpr hge]

/-- A source passes if it is no register, and no local without a definition ahead of it. -/
theorem checkSource_eq_ok_iff (honce : (definedLocals graph.operations).Nodup)
    (hreach : graph.Reachable b) {block : Block} (hblock : graph.blocks[b]? = some block) {k : Nat}
    {src : Operand} :
    checkSource (ofGraph graph) (definitionsOf graph) b pos op src k = .ok () ↔
      src.register? = none ∧ ∀ id, src.localId? = some id →
        ∃ c, Supplies graph b (block.operations.take pos) op k id c := by
  cases src with
  | constant bits type => exact iff_of_true rfl ⟨rfl, fun id hid => by cases hid⟩
  | register reg type => simp [checkSource, violation, register?]
  | localVar id type =>
    rw [checkSource_localVar_iff]
    simp only [localId?, register?, Option.some.injEq, forall_eq', true_and, Prod.exists]
    refine exists_congr fun c => ?_
    have hsite {j} : (definitionsOf graph).lookup id = some (c, j) ↔ _ :=
      lookup_definitionsOf_iff honce hdoms.indexed
    constructor
    · rintro ⟨j, hlookup, hmeets⟩
      obtain ⟨other, definer, hother, hdefiner, hdefs⟩ := hsite.mp hlookup
      refine ⟨⟨other, hother, mem_definedLocals_iff.mpr ⟨j, definer, hdefiner, hdefs⟩⟩, ?_⟩
      rw [reaches_eq_ok_iff hdoms hreach] at hmeets
      split at hmeets
      next hphi => rwa [if_pos hphi]
      next hphi =>
        rw [if_neg hphi]
        refine hmeets.imp_left ?_
        rintro ⟨rfl, hj⟩
        obtain rfl := Option.mem_unique hblock hother
        exact ⟨rfl, mem_definedLocals_iff.mpr ⟨j, definer, by rwa [getElem?_take_of_lt hj], hdefs⟩⟩
    · rintro ⟨⟨other, hother, hid⟩, hahead⟩
      obtain ⟨j, definer, hdefiner, hdefs⟩ := mem_definedLocals_iff.mp hid
      have hlookup := hsite.mpr ⟨other, definer, hother, hdefiner, hdefs⟩
      refine ⟨j, hlookup, (reaches_eq_ok_iff hdoms hreach).mpr ?_⟩
      split at hahead
      next hphi => simpa only [hphi, if_true] using hahead
      next hphi =>
        simp only [hphi]
        refine hahead.imp_left ?_
        rintro ⟨rfl, hbefore⟩
        -- A local has one definition, so the one in front is the one in the table.
        obtain ⟨i, earlier, hearlier, hid'⟩ := mem_definedLocals_iff.mp hbefore
        rw [getElem?_take] at hearlier
        split at hearlier
        next hlt =>
          have hother := hsite.mpr ⟨block, earlier, hblock, hearlier, hid'⟩
          cases hlookup.symm.trans hother
          exact ⟨rfl, hlt⟩
        next => cases hearlier

/-- The checks, one source at a time. -/
theorem verify_eq_ok_iff : verify graph = .ok () ↔
    (∀ op ∈ graph.operations, op.destination.bind register? = none) ∧
      (definedLocals graph.operations).Nodup ∧
      ∀ ⦃b block⦄, graph.blocks[b]? = some block → graph.Reachable b →
        ∀ ⦃pos op⦄, block.operations[pos]? = some op →
          (op.isPhi → op.labels.length = block.predecessors.length) ∧
          ∀ ⦃k src⦄, op.sources[k]? = some src →
            src.register? = none ∧ ∀ id, src.localId? = some id →
              ∃ c, Supplies graph b (block.operations.take pos) op k id c := by
  have hcheck : ∀ {defs block op pos}, checkOperation (ofGraph graph) defs block op pos = .ok () ↔
        (op.isPhi → op.labels.length = block.predecessors.length) ∧
        ∀ ⦃k src⦄, op.sources[k]? = some src →
          checkSource (ofGraph graph) defs block.index pos op src k = .ok () := by
    intro defs block op pos
    have hforM : (op.sources.zipIdx.forM fun s =>
        checkSource (ofGraph graph) defs block.index pos op s.1 s.2) = .ok () ↔
        ∀ ⦃k src⦄, op.sources[k]? = some src →
          checkSource (ofGraph graph) defs block.index pos op src k = .ok () := by
      rw [forM_eq_ok]
      exact ⟨fun h k src hk => h (src, k) (mk_mem_zipIdx_iff_getElem?.mpr hk),
        fun h site hk => h (mk_mem_zipIdx_iff_getElem?.mp hk)⟩
    rw [← hforM]
    by_cases hcount : op.isPhi → op.labels.length = block.predecessors.length
    · have : (op.isPhi && op.labels.length != block.predecessors.length) = false := by
        simpa using hcount
      rw [checkOperation, this]
      exact (and_iff_right hcount).symm
    · have : (op.isPhi && op.labels.length != block.predecessors.length) = true := by
        simpa using hcount
      rw [checkOperation, this]
      exact iff_of_false (fun h => by cases h) fun h => hcount h.1
  rw [verify, bind_eq_ok]
  simp only [noteDefinitions_eq_ok_iff]
  constructor
  · rintro ⟨_, ⟨rfl, hregs, honce⟩, hchecks⟩
    refine ⟨hregs, honce, fun b block hblock hreach pos op hop => ?_⟩
    have hindex : block.index = b := hdoms.indexed hblock
    have hmem : block ∈ graph.blocks.toList.filter
        fun block => (ofGraph graph).isReachable block.index :=
      mem_filter.mpr ⟨mem_blocks_iff.mpr ⟨b, hblock⟩, by rwa [hindex, isReachable_iff hdoms]⟩
    have hops := forM_eq_ok.mp (forM_eq_ok.mp hchecks block hmem) (op, pos)
      (mk_mem_zipIdx_iff_getElem?.mpr hop)
    refine (hcheck.mp hops).imp_right fun hsrcs k src hk => ?_
    exact (checkSource_eq_ok_iff hdoms honce hreach hblock).mp (hindex ▸ hsrcs hk)
  · rintro ⟨hregs, honce, hsupp⟩
    refine ⟨_, ⟨rfl, hregs, honce⟩, forM_eq_ok.mpr fun block hmem => forM_eq_ok.mpr ?_⟩
    obtain ⟨hblock, hlive⟩ := mem_filter.mp hmem
    obtain ⟨b, hblock⟩ := mem_blocks_iff.mp hblock
    obtain rfl : block.index = b := hdoms.indexed hblock
    have hreach := (isReachable_iff hdoms).mp hlive
    rintro ⟨op, pos⟩ hop
    refine hcheck.mpr ((hsupp hblock hreach (mk_mem_zipIdx_iff_getElem?.mp hop)).imp_right
      fun hsrcs k src hk => ?_)
    exact (checkSource_eq_ok_iff hdoms honce hreach hblock).mpr (hsrcs hk)

/-- Graphs in single assignment form without registers pass. -/
theorem verify_eq_ok (hassign : SingleAssignment graph) (hlocals : OverLocals graph) :
    verify graph = .ok () := by
  refine (verify_eq_ok_iff hdoms).mpr ⟨fun op hop => ?_, hassign.once,
    fun b block hblock _ pos op hop => ⟨fun hphi => ?_, fun k src hsrc => ?_⟩⟩
  · cases hdest : op.destination with
    | none => rfl
    | some opnd => exact hlocals.registers op hop opnd (mem_append_left _ (by simp [hdest]))
  · rw [(hlocals.labels hblock op (mem_of_getElem? hop) hphi).1]
  have hmem : op ∈ block.operations := mem_of_getElem? hop
  refine ⟨hlocals.registers op (mem_flatMap.mpr ⟨block, mem_blocks_iff.mpr ⟨b, hblock⟩, hmem⟩) _
    (mem_append_right _ (mem_of_getElem? hsrc)), fun id hid => ?_⟩
  unfold Supplies
  cases hphi : op.isPhi with
  | true =>
    obtain ⟨hlabels, hlength⟩ := hlocals.labels hblock op hmem hphi
    obtain ⟨label, hlabel⟩ : ∃ label, op.labels[k]? = some label :=
      ⟨_, getElem?_eq_getElem (hlength ▸ (List.getElem?_eq_some_iff.mp hsrc).1)⟩
    have hinput : (label, src) ∈ op.inputs :=
      mem_of_getElem? (getElem?_zip_eq_some.mpr ⟨hlabel, hsrc⟩)
    obtain ⟨c, hdom, hdef⟩ := hassign.inputs hblock op hmem hphi _ hinput id hid
    refine ⟨c, hdef, label, ?_, hlabel, fun _ => hdom⟩
    refine hdoms.mirrored.lt_size_of_predecessor (b := b) ?_
    rw [predecessors_eq hblock, ← hlabels]
    exact mem_of_getElem? hlabel
  | false =>
    obtain ⟨hlt, hget⟩ := List.getElem?_eq_some_iff.mp hop
    have hsplit : block.operations =
        block.operations.take pos ++ op :: block.operations.drop (pos + 1) := by
      rw [← hget, getElem_cons_drop, take_append_drop]
    rcases hassign.uses hblock hsplit hphi _ (mem_of_getElem? hsrc) id hid with
      hearlier | ⟨c, hne, hdom, hdef⟩
    · refine ⟨b, ⟨block, hblock, ?_⟩, .inl ⟨rfl, hearlier⟩⟩
      rw [hsplit, definedLocals_append]
      exact mem_append_left _ hearlier
    · exact ⟨c, hdef, .inr ⟨hne, hdom⟩⟩

/-- Graphs of reachable blocks that pass are in single assignment form. -/
theorem singleAssignment_of_verify (hreachable : ∀ b < graph.size, graph.Reachable b)
    (hverify : verify graph = .ok ()) : SingleAssignment graph := by
  obtain ⟨-, honce, hsupp⟩ := (verify_eq_ok_iff hdoms).mp hverify
  refine ⟨honce, ?_, ?_⟩
  · intro b block before after op hblock hops hphi src hsrc id hid
    obtain ⟨k, hk⟩ := mem_iff_getElem?.mp hsrc
    have hop : block.operations[before.length]? = some op := by
      rw [hops]
      simp
    obtain ⟨c, hdef, hahead⟩ := ((hsupp hblock (hreachable b (lt_size hblock)) hop).2 hk).2 id hid
    rw [hphi, hops, take_left] at hahead
    exact hahead.imp And.right fun h => ⟨c, h.1, h.2, hdef⟩
  · intro b block hblock op hop hphi input hinput id hid
    obtain ⟨pos, hpos⟩ := mem_iff_getElem?.mp hop
    obtain ⟨k, hk⟩ := mem_iff_getElem?.mp hinput
    obtain ⟨hlabel, hsrc⟩ := getElem?_zip_eq_some.mp hk
    obtain ⟨c, hdef, hahead⟩ :=
      ((hsupp hblock (hreachable b (lt_size hblock)) hpos).2 hsrc).2 id hid
    rw [if_pos hphi] at hahead
    obtain ⟨label, hlt, hlabel', hdom⟩ := hahead
    obtain rfl := Option.mem_unique hlabel hlabel'
    exact ⟨c, hdom (hreachable _ hlt), hdef⟩

end

end GraphJit.SSA
