import GraphJit.Proofs.ConstructionRefines
import GraphJit.Proofs.Verification
import Mathlib.Data.List.TakeWhile

/-! # Construction yields single assignment form

Every local of the result is defined once: the original ones keep their definitions,
and the new ones come from disjoint ranges of numbers. A local in scope is defined
above in the dominator tree, and the cleared ones are defined in the entry.
-/

namespace GraphJit.SSA

open GraphJit.Graph Dominance DominatorTree List Operand GuestVariable

variable {graph result : Graph} {vars : List GuestVariable} {zeros scope next last : Scope}
  {out : Nat → Scope} {span : Nat → Nat × Nat} {low high : Nat}

/-! ## Definitions of renamed operations -/

theorem definedLocals_cons (op : Operation) (ops : List Operation) : definedLocals (op :: ops) =
      (op.destination.bind localId?).toList ++ definedLocals ops := by
  rw [definedLocals, filterMap_cons]
  cases op.destination.bind localId? <;> rfl

variable {ops new before after : List Operation} {id : Nat} {op : Operation} {opnd : Operand}

/-- The local that a renamed operation defines is an original or a new one. -/
theorem RenamesOne.destination_cases {new : Operation}
    (hop : RenamesOne zeros low high scope op new next) :
    (new.destination = op.destination ∧ next = scope) ∨
      ∃ reg id, op.destination.bind localId? = none ∧
        new.destination.bind localId? = some id ∧ low ≤ id ∧ id < high ∧
        (∀ other, zeros.lookup other ≠ some id) ∧ next = (reg, id) :: scope := by
  cases hop with
  | keep => exact .inl ⟨rfl, rfl⟩
  | @define reg type id hdest hlow hhigh _ hzeros =>
    exact .inr ⟨reg, id, by simp [hdest, localId?], rfl, hlow, hhigh, hzeros, rfl⟩

theorem Renames.le (hren : Renames zeros low high scope ops new last) : low ≤ high := by
  induction hren with
  | nil hle => exact hle
  | cons hle _ _ ih => exact hle.trans ih

section

variable (hren : Renames zeros low high scope ops new last)
include hren

theorem Renames.mem_definedLocals (hid : id ∈ definedLocals new) :
    id ∈ definedLocals ops ∨ low ≤ id ∧ id < high ∧ ∀ other, zeros.lookup other ≠ some id := by
  induction hren with
  | nil => exact .inl hid
  | cons hle hop hrest ih =>
    have hhigh := hrest.le
    rw [definedLocals_cons, mem_append] at hid ⊢
    rcases hid with hid | hid
    · rcases hop.destination_cases with ⟨hdest, -⟩ | ⟨reg, new, -, hnew, hlow, hlt, hzeros, -⟩
      · exact .inl (.inl (hdest ▸ hid))
      · rw [hnew, Option.mem_toList] at hid
        cases hid
        exact .inr ⟨hlow, by omega, hzeros⟩
    · rcases ih hid with hid | ⟨hlow, hlt, hzeros⟩
      · exact .inl (.inr hid)
      · exact .inr ⟨by omega, hlt, hzeros⟩

theorem Renames.definedLocals_subset : definedLocals ops ⊆ definedLocals new := by
  induction hren with
  | nil => exact List.Subset.refl _
  | cons _ hop _ ih =>
    rw [definedLocals_cons, definedLocals_cons]
    refine append_subset.mpr ⟨fun id hid => ?_, fun id hid => mem_append_right _ (ih hid)⟩
    rcases hop.destination_cases with ⟨hdest, -⟩ | ⟨reg, new, hnone, -⟩
    · exact mem_append_left _ (hdest ▸ hid)
    · simp [hnone] at hid

theorem Renames.nodup (hnodup : (definedLocals ops).Nodup)
    (hlt : ∀ id ∈ definedLocals ops, id < low) : (definedLocals new).Nodup := by
  induction hren with
  | nil => exact nodup_nil
  | @cons low middle high scope next last op new rest others hle hop hrest ih =>
    rw [definedLocals_cons] at hnodup hlt ⊢
    obtain ⟨-, hnodup', hdisj⟩ := nodup_append.mp hnodup
    have hothers := ih hnodup' fun id hid =>
      (hlt id (mem_append_right _ hid)).trans_le hle
    have hone : (new.destination.bind localId?).toList.Nodup := by
      cases new.destination.bind localId? <;> simp
    refine nodup_append.mpr ⟨hone, hothers, fun id hid other hother heq => ?_⟩
    subst heq
    rcases hop.destination_cases with ⟨hdest, -⟩ | ⟨reg, fresh, -, hfresh, hlow, hhigh, -, -⟩
    · rw [hdest] at hid
      rcases hrest.mem_definedLocals hother with hmem | ⟨hge, -⟩
      · exact hdisj id hid id hmem rfl
      · have := hlt id (mem_append_left _ hid)
        omega
    · rw [hfresh, Option.mem_toList] at hid
      cases hid
      rcases hrest.mem_definedLocals hother with hmem | ⟨hge, -⟩
      · have := hlt _ (mem_append_right _ hmem)
        omega
      · omega

theorem Renames.lookup_cases {reg : GuestRegister} (hid : last.lookup reg = some id) :
    scope.lookup reg = some id ∨ id ∈ definedLocals new := by
  induction hren with
  | nil => exact .inl hid
  | cons _ hop _ ih =>
    rw [definedLocals_cons]
    rcases ih hid with hnext | hmem
    · rcases hop.destination_cases with ⟨-, rfl⟩ | ⟨defined, fresh, -, hfresh, -, -, -, rfl⟩
      · exact .inl hnext
      · rw [lookup_cons] at hnext
        split at hnext
        next =>
          cases hnext
          exact .inr (mem_append_left _ (by simp [hfresh]))
        next => exact .inl hnext
    · exact .inr (mem_append_right _ hmem)

end

/-! ## Uses of renamed operations -/

/-- Where the local comes from that an operand is resolved to. -/
theorem localId?_resolve (hid : (resolve zeros scope opnd).localId? = some id) :
    opnd.localId? = some id ∨ ∃ reg, opnd.register? = some reg ∧
        (scope.lookup reg = some id ∨ zeros.lookup reg = some id) := by
  rcases resolve_cases zeros scope opnd with ⟨reg, _, own, rfl, hlocal, hown⟩ | ⟨hsame, -⟩
  · rw [hlocal] at hid
    cases hid
    exact .inr ⟨reg, rfl, hown.imp_right And.right⟩
  · exact .inl (hsame ▸ hid)

theorem Renames.split {new : Operation}
    (hren : Renames zeros low high scope ops (before ++ new :: after) last) :
    ∃ first op second lower upper middle next, ops = first ++ op :: second ∧
      Renames zeros low lower scope first before middle ∧
      RenamesOne zeros lower upper middle op new next := by
  induction before generalizing low scope ops with
  | nil =>
    cases hren with
    | @cons _ upper _ _ next _ op _ rest _ hle hop hrest =>
      exact ⟨[], op, rest, low, upper, scope, next, rfl, .nil (Nat.le_refl _), hop⟩
  | cons head before ih =>
    cases hren with
    | @cons _ _ _ _ _ _ op _ rest _ hle hop hrest =>
      obtain ⟨first, found, second, lower, upper, middle, next, rfl, hfirst, hfound⟩ := ih hrest
      exact ⟨op :: first, found, second, lower, upper, middle, next, rfl, .cons hle hop hfirst,
        hfound⟩

theorem Renames.exists_one (hren : Renames zeros low high scope ops new last) (hop : op ∈ new) :
    ∃ old ∈ ops, ∃ lower upper middle next, RenamesOne zeros lower upper middle old op next := by
  obtain ⟨before, after, rfl⟩ := append_of_mem hop
  obtain ⟨first, old, second, lower, upper, middle, next, rfl, -, hold⟩ := hren.split
  exact ⟨old, by simp, lower, upper, middle, next, hold⟩

/-- A renamed operation other than a phi reads original locals, locals that were defined in
front of it, locals that were in scope from the start, and cleared ones. -/
theorem Renames.use_cases {new : Operation}
    (hren : Renames zeros low high scope ops (before ++ new :: after) last)
    (hphi : new.isPhi = false) {src : Operand} (hsrc : src ∈ new.sources)
    (hid : src.localId? = some id) :
    ∃ first op second, ops = first ++ op :: second ∧ op.isPhi = false ∧
      definedLocals first ⊆ definedLocals before ∧
      (id ∈ definedLocals before ∨ ∃ opnd ∈ op.sources, opnd.localId? = some id ∨
        ∃ reg, opnd.register? = some reg ∧
          (scope.lookup reg = some id ∨ zeros.lookup reg = some id)) := by
  obtain ⟨first, op, second, lower, upper, middle, next, rfl, hfirst, hop⟩ := hren.split
  obtain ⟨hinsn, -, hsrcs⟩ := (hop.substitutes (Nat.zero_le _)).same
  have hphi' : op.isPhi = false := by rwa [Operation.isPhi, ← hinsn]
  refine ⟨first, op, second, rfl, hphi', hfirst.definedLocals_subset, ?_⟩
  rw [hsrcs, readSources, hphi'] at hsrc
  obtain ⟨opnd, hopnd, rfl⟩ := mem_map.mp hsrc
  rcases localId?_resolve hid with hown | ⟨reg, hreg, hlookup | hzero⟩
  · exact .inr ⟨opnd, hopnd, .inl hown⟩
  · rcases hfirst.lookup_cases hlookup with hscope | hmem
    · exact .inr ⟨opnd, hopnd, .inr ⟨reg, hreg, .inl hscope⟩⟩
    · exact .inl hmem
  · exact .inr ⟨opnd, hopnd, .inr ⟨reg, hreg, .inr hzero⟩⟩

/-- Registers are gone, apart from the inputs of phis. -/
theorem RenamesOne.registers {new : Operation} (hop : RenamesOne zeros low high scope op new next) :
    new.destination.bind register? = none ∧
      (op.isPhi = false → ∀ src ∈ new.sources, src.register? = none) := by
  obtain ⟨hinsn, -, hsrcs⟩ := (hop.substitutes (Nat.zero_le _)).same
  refine ⟨?_, fun hphi src hsrc => ?_⟩
  · cases hop with
    | keep hdest => exact hdest
    | define => rfl
  · rw [hsrcs, readSources, hphi] at hsrc
    obtain ⟨opnd, hopnd, rfl⟩ := mem_map.mp hsrc
    exact register?_resolve ((hop.substitutes (Nat.zero_le _)).resolved hphi opnd hopnd)

/-! ## Definitions of the result -/

/-- Locals are defined once if that holds in each block and blocks share none. -/
theorem nodup_definedLocals_iff : (definedLocals graph.operations).Nodup ↔
      (∀ ⦃b : Nat⦄ ⦃block : Block⦄, graph.blocks[b]? = some block →
        (definedLocals block.operations).Nodup) ∧
      ∀ ⦃b c : Nat⦄ ⦃block other : Block⦄, b < c → graph.blocks[b]? = some block →
        graph.blocks[c]? = some other →
        List.Disjoint (definedLocals block.operations) (definedLocals other.operations) := by
  rw [definedLocals_operations, nodup_flatMap, pairwise_iff_getElem]
  refine and_congr ⟨fun h b block hblock => h block (mem_blocks_iff.mpr ⟨b, hblock⟩),
    fun h block hmem => ?_⟩ ⟨fun h b c block other hlt hblock hother => ?_,
      fun h b c hb hc hlt => h hlt ?_ ?_⟩
  · obtain ⟨b, hblock⟩ := mem_blocks_iff.mp hmem
    exact h hblock
  · obtain ⟨hb, rfl⟩ := Array.getElem?_eq_some_iff.mp hblock
    obtain ⟨hc, rfl⟩ := Array.getElem?_eq_some_iff.mp hother
    exact h b c hb hc hlt
  · rw [Array.getElem_toList, Array.getElem?_eq_getElem]
  · rw [Array.getElem_toList, Array.getElem?_eq_getElem]

theorem definedLocals_afterLoads (inits ops : List Operation) :
    (definedLocals (afterLoads inits ops)).Perm (definedLocals inits ++ definedLocals ops) := by
  have hsplit : definedLocals ops = definedLocals (ops.takeWhile (·.instruction.isLoadArgument)) ++
        definedLocals (ops.dropWhile (·.instruction.isLoadArgument)) := by
    rw [← definedLocals_append, takeWhile_append_dropWhile]
  rw [afterLoads, definedLocals_append, definedLocals_append, hsplit, ← append_assoc]
  exact perm_append_comm.append_right _

theorem definedLocals_zeroInits (vars : List GuestVariable) (zeros : Scope) :
    definedLocals (zeroInits vars zeros) = vars.filterMap fun var => zeros.lookup var.register := by
  rw [definedLocals, zeroInits, filterMap_map, filterMap_filterMap]
  congr 1
  funext var
  cases zeros.lookup var.register <;> rfl

theorem definedLocals_phisAndOperations (graph : Graph) (vars : List GuestVariable) (zeros : Scope)
    (out : Nat → Scope) (b : Nat) (block : Block) :
    definedLocals (phisAndOperations graph vars zeros out b block) =
      definedLocals block.operations := by
  have hdest : ∀ ops : List Operation, definedLocals
      (ops.map (mapInputs fun label => resolve zeros (out label))) = definedLocals ops := by
    intro ops
    rw [definedLocals, filterMap_map]
    simp only [Function.comp_def, destination_mapInputs]
    rfl
  have hphis : definedLocals (phisFor graph vars b block.predecessors) = [] := by
    refine filterMap_eq_nil_iff.mpr fun op hop => ?_
    obtain ⟨var, -, -, rfl⟩ := mem_phisFor hop
    rfl
  rw [phisAndOperations, hdest, definedLocals_append, hphis, nil_append]

theorem Unconstructed.lt_of_defined (hfresh : Unconstructed graph) {b : Nat} {block : Block}
    (hblock : graph.blocks[b]? = some block) (hid : id ∈ definedLocals block.operations) :
    id < graph.locals.count := by
  obtain ⟨op, hop, hdefs⟩ := mem_filterMap.mp hid
  obtain ⟨opnd, hdest, hlocal⟩ := Option.bind_eq_some_iff.mp hdefs
  exact hfresh.locals op (mem_operations hblock hop) opnd
    (mem_append_left _ (by simp [hdest])) id hlocal

namespace Constructed

variable {b id : Nat} {block block' : Block} {reg : GuestRegister}

/-- The result defines what the renamed operations define. -/
theorem definedIn_of_renamed (hresult : result.blocks[b]? = some { block with
      operations := if b = entry then afterLoads (zeroInits vars zeros) ops
        else ops }) (hid : id ∈ definedLocals ops) : DefinedIn result id b := by
  refine ⟨_, hresult, ?_⟩
  dsimp only
  split
  next => exact (definedLocals_afterLoads _ _).mem_iff.mpr (mem_append_right _ hid)
  next => exact hid

variable (hbuilt : Constructed graph vars zeros out span result)
include hbuilt

theorem mem_definedLocals (hblock : graph.blocks[b]? = some block)
    (hblock' : result.blocks[b]? = some block') (hid : id ∈ definedLocals block'.operations) :
    id ∈ definedLocals block.operations ∨
      ((span b).1 ≤ id ∧ id < (span b).2 ∧ ∀ other, zeros.lookup other ≠ some id) ∨
      b = entry ∧ ∃ reg, zeros.lookup reg = some id := by
  obtain ⟨ops, hresult, hren⟩ := hbuilt.blocks hblock
  obtain rfl := Option.mem_unique hblock' hresult
  have hcases : id ∈ definedLocals ops → id ∈ definedLocals block.operations ∨
      ((span b).1 ≤ id ∧ id < (span b).2 ∧ ∀ other, zeros.lookup other ≠ some id) := by
    intro hmem
    rw [← definedLocals_phisAndOperations graph vars zeros out b block]
    exact hren.mem_definedLocals hmem
  dsimp only at hid
  split at hid
  next hb =>
    rcases mem_append.mp ((definedLocals_afterLoads _ _).mem_iff.mp hid) with hzero | hmem
    · rw [definedLocals_zeroInits] at hzero
      obtain ⟨var, -, hzero⟩ := mem_filterMap.mp hzero
      exact .inr (.inr ⟨hb, var.register, hzero⟩)
    · exact (hcases hmem).imp_right .inl
  next => exact (hcases hid).imp_right .inl

theorem definedIn (hdef : DefinedIn graph id b) : DefinedIn result id b := by
  obtain ⟨block, hblock, hid⟩ := hdef
  obtain ⟨ops, hresult, hren⟩ := hbuilt.blocks hblock
  refine definedIn_of_renamed hresult (hren.definedLocals_subset ?_)
  rwa [definedLocals_phisAndOperations]

theorem definedIn_entry (hnonempty : 0 < graph.size) (hoccurs : Occurs vars reg)
    (hzero : zeros.lookup reg = some id) : DefinedIn result id entry := by
  obtain ⟨block, hblock⟩ : ∃ block, graph.blocks[entry]? = some block := exists_block hnonempty
  obtain ⟨ops, hresult, -⟩ := hbuilt.blocks hblock
  obtain ⟨var, hvar, rfl⟩ := mem_map.mp hoccurs
  refine ⟨_, hresult, (definedLocals_afterLoads _ _).mem_iff.mpr (mem_append_left _ ?_)⟩
  rw [definedLocals_zeroInits]
  exact mem_filterMap.mpr ⟨var, hvar, hzero⟩

/-- A local in scope at the end of a block is defined above in the tree. -/
theorem exists_definedIn (hprep : Prepared graph) (hreach : graph.Reachable b)
    (hid : (out b).lookup reg = some id) :
    ∃ c, Above (parentOf graph) c b ∧ DefinedIn result id c := by
  have hdoms := hprep.analyzed
  obtain ⟨rank, hrooted, -⟩ := hdoms.immediate.rooted
  induction hrank : rank b using Nat.strongRecOn generalizing b with
  | ind depth ih =>
    obtain ⟨block, hblock⟩ := exists_block (hreach.lt_size hdoms.mirrored hdoms.nonempty)
    obtain ⟨ops, hresult, hren⟩ := hbuilt.blocks hblock
    rcases hren.lookup_cases hid with habove | hmem
    · obtain ⟨parent, hb, hparent, hid⟩ := exists_parent_of_lookup habove
      obtain ⟨c, hc, hdef⟩ := ih (rank parent) (hrank ▸ hrooted.lower hb hparent)
        (hdoms.immediate.defined_iff.mp (hrooted.closed hparent)) hid rfl
      exact ⟨c, .up hparent hc, hdef⟩
    · exact ⟨b, .refl, definedIn_of_renamed hresult hmem⟩

theorem origin (hblock' : result.blocks[b]? = some block') :
    ∃ block, graph.blocks[b]? = some block :=
  exists_block (hbuilt.size ▸ lt_size hblock')

variable (hfresh : Unconstructed graph) (hvars : collect graph = .ok vars)
include hfresh hvars

theorem nodup_block (hblock : graph.blocks[b]? = some block)
    (hnodup : (definedLocals block.operations).Nodup) (hblock' : result.blocks[b]? = some block') :
    (definedLocals block'.operations).Nodup := by
  obtain ⟨ops, hresult, hren⟩ := hbuilt.blocks hblock
  obtain rfl := Option.mem_unique hblock' hresult
  have hspan := (hbuilt.spans b (lt_size hblock)).1
  have hlt : ∀ id ∈ definedLocals block.operations, id < graph.locals.count :=
    fun id hid => hfresh.lt_of_defined hblock hid
  have hnamed : (definedLocals ops).Nodup := by
    refine hren.nodup ?_ ?_
    · rwa [definedLocals_phisAndOperations]
    · rw [definedLocals_phisAndOperations]
      exact fun id hid => (hlt id hid).trans_le hspan
  dsimp only
  split
  next =>
    refine (definedLocals_afterLoads _ _).nodup_iff.mpr (nodup_append.mpr ⟨?_, hnamed, ?_⟩)
    · have hregs := (collect_eq_ok hvars).nodup
      have hzeros := hregs.filterMap (f := fun reg => zeros.lookup reg)
        fun first second id hfirst hsecond => hbuilt.distinct hfirst hsecond
      rwa [filterMap_map, Function.comp_def, ← definedLocals_zeroInits] at hzeros
    · intro id hzero other hid heq
      subst heq
      rw [definedLocals_zeroInits] at hzero
      obtain ⟨var, -, hzero⟩ := mem_filterMap.mp hzero
      rcases hren.mem_definedLocals hid with hown | ⟨-, -, hnot⟩
      · rw [definedLocals_phisAndOperations] at hown
        have := hlt id hown
        have := hbuilt.atLeast_zeros hzero
        omega
      · exact hnot _ hzero
  next => exact hnamed

theorem once (honce : (definedLocals graph.operations).Nodup) :
    (definedLocals result.operations).Nodup := by
  obtain ⟨hblocks, hdisj⟩ := nodup_definedLocals_iff.mp honce
  refine nodup_definedLocals_iff.mpr ⟨fun b block' hblock' => ?_,
    fun b c block' other' hlt hblock' hother' id hid hid' => ?_⟩
  · obtain ⟨block, hblock⟩ := hbuilt.origin hblock'
    exact hbuilt.nodup_block hfresh hvars hblock (hblocks hblock) hblock'
  · obtain ⟨block, hblock⟩ := hbuilt.origin hblock'
    obtain ⟨other, hother⟩ := hbuilt.origin hother'
    have hspan := (hbuilt.spans b (lt_size hblock)).1
    have hspan' := (hbuilt.spans c (lt_size hother)).1
    -- original, new and cleared locals keep apart
    rcases hbuilt.mem_definedLocals hblock hblock' hid with
      hown | ⟨hlow, hhigh, hnot⟩ | ⟨hb, reg, hzero⟩ <;>
    rcases hbuilt.mem_definedLocals hother hother' hid' with
      hown' | ⟨hlow', hhigh', hnot'⟩ | ⟨hc, register', hzero'⟩
    · exact hdisj hlt hblock hother hown hown'
    · have := hfresh.lt_of_defined hblock hown
      omega
    · have := hfresh.lt_of_defined hblock hown
      have := hbuilt.atLeast_zeros hzero'
      omega
    · have := hfresh.lt_of_defined hother hown'
      omega
    · have := hbuilt.apart b (lt_size hblock) c (lt_size hother) (by omega)
      omega
    · exact hnot _ hzero'
    · have := hfresh.lt_of_defined hother hown'
      have := hbuilt.atLeast_zeros hzero
      omega
    · exact hnot' _ hzero
    · omega

end Constructed

/-! ## Uses of the result -/

theorem append_eq_of_not_mem {α : Type} {front items first second : List α} {item : α}
    (heq : front ++ items = first ++ item :: second) (hnot : item ∉ front) :
    ∃ rest, first = front ++ rest ∧ items = rest ++ item :: second := by
  rcases append_eq_append_iff.mp heq with ⟨rest, hfirst, hitems⟩ | ⟨rest, rfl, hitems⟩
  · exact ⟨rest, hfirst, hitems⟩
  · cases rest with
    | nil => exact ⟨[], by simp, by simpa using hitems.symm⟩
    | cons head rest =>
      obtain ⟨rfl, -⟩ := List.cons.inj hitems
      simp at hnot

/-- The operations behind the inserted ones see them. -/
theorem afterLoads_split {inits ops : List Operation}
    (heq : afterLoads inits ops = before ++ op :: after) :
    (op ∈ ops ∧ op.instruction.isLoadArgument) ∨ op ∈ inits ∨
      ∃ first second, ops = first ++ op :: second ∧ definedLocals first ⊆ definedLocals before ∧
        definedLocals inits ⊆ definedLocals before := by
  by_cases hload : op ∈ ops.takeWhile (·.instruction.isLoadArgument)
  · have hpos := mem_takeWhile_imp (p := fun op : Operation => op.instruction.isLoadArgument) hload
    exact .inl ⟨takeWhile_subset _ hload, hpos⟩
  · by_cases hinit : op ∈ inits
    · exact .inr (.inl hinit)
    · obtain ⟨rest, rfl, hdrop⟩ := append_eq_of_not_mem heq
        (fun h => (mem_append.mp h).elim hload hinit)
      refine .inr (.inr ⟨ops.takeWhile (·.instruction.isLoadArgument) ++ rest, after, ?_, ?_, ?_⟩)
      · rw [append_assoc, ← hdrop, takeWhile_append_dropWhile]
      · simp only [definedLocals_append]
        exact append_subset.mpr ⟨fun id hid => by simp [hid], fun id hid => by simp [hid]⟩
      · simp only [definedLocals_append]
        exact fun id hid => by simp [hid]

theorem labels_fedPhi (zeros : Scope) (out : Nat → Scope) (preds : List Nat)
    (var : GuestVariable) : (fedPhi zeros out preds var).labels = preds := by
  rw [fedPhi, mapInputs, if_pos (isPhi_emptyPhi var preds)]
  exact labels_emptyPhi var preds

theorem sources_fedPhi (zeros : Scope) (out : Nat → Scope) (preds : List Nat)
    (var : GuestVariable) : (fedPhi zeros out preds var).sources =
      preds.map fun q => resolve zeros (out q) (.register var.register var.type) := by
  rw [fedPhi, mapInputs, if_pos (isPhi_emptyPhi var preds)]
  change List.zipWith _ (emptyPhi var preds).labels (List.map _ (List.map _ preds)) = _
  rw [labels_emptyPhi, map_map, zipWith_map_right, zipWith_self]
  rfl

namespace Constructed

variable (hbuilt : Constructed graph vars zeros out span result)
include hbuilt

variable {b id : Nat} {block' block : Block} {op : Operation} {before after : List Operation}
  {src : Operand}

/-- What a renamed operation reads is defined in front of it, in another block above, or
cleared at the entry. -/
theorem use_cases (hprep : Prepared graph) (hfresh : Unconstructed graph)
    (hvars : collect graph = .ok vars) (hassigned : SingleAssignment graph) {new : Operation}
    (hblock : graph.blocks[b]? = some block)
    (hren : Renames zeros (span b).1 (span b).2 (scopeAbove graph out b)
      (phisAndOperations graph vars zeros out b block) (before ++ new :: after) (out b))
    (hphi : new.isPhi = false) (hsrc : src ∈ new.sources) (hid : src.localId? = some id) :
    id ∈ definedLocals before ∨ (∃ c ≠ b, graph.Dominates c b ∧ DefinedIn result id c) ∨
      ∃ reg, Occurs vars reg ∧ zeros.lookup reg = some id := by
  have himm := hprep.analyzed.immediate
  have hreach := hprep.reachable b (lt_size hblock)
  obtain ⟨first, op, second, heq, hphi', hsub, hcases⟩ := hren.use_cases hphi hsrc hid
  rw [phisAndOperations_eq fun op hop => hfresh.phis op (mem_operations hblock hop)] at heq
  obtain ⟨rest, rfl, hops⟩ := append_eq_of_not_mem heq fun hmem => by
    obtain ⟨var, -, rfl⟩ := mem_map.mp hmem
    simp [isPhi_fedPhi] at hphi'
  have hop : op ∈ block.operations := by simp [hops]
  rcases hcases with hbefore | ⟨opnd, hopnd, hown | ⟨reg, hreg, hscope | hzero⟩⟩
  · exact .inl hbefore
  · rcases hassigned.uses hblock hops hphi' opnd hopnd id hown with hrest | ⟨c, hne, hdom, hc⟩
    · refine .inl (hsub ?_)
      rw [definedLocals_append]
      exact mem_append_right _ hrest
    · exact .inr (.inl ⟨c, hne, hdom, hbuilt.definedIn hc⟩)
  · obtain ⟨parent, hb, hparent, hscope⟩ := exists_parent_of_lookup hscope
    obtain ⟨rank, hrooted, -⟩ := himm.rooted
    obtain ⟨c, habove, hdef⟩ := hbuilt.exists_definedIn hprep
      (himm.defined_iff.mp (hrooted.closed hparent)) hscope
    have hne : c ≠ b := by
      rintro rfl
      have := hrooted.lower hb hparent
      have := habove.rank_le hrooted
      omega
    exact .inr (.inl ⟨c, hne, (himm.above_iff hreach).mp (.up hparent habove), hdef⟩)
  · refine .inr (.inr ⟨reg, occurs_of_mem hvars ?_ hreg, hzero⟩)
    exact mem_flatMap.mpr ⟨op, mem_operations hblock hop, mem_append_right _ hopnd⟩

/-- An operation of the result was inserted, or is a renamed phi or operation. -/
theorem exists_renamed (hblock : graph.blocks[b]? = some block)
    (hblock' : result.blocks[b]? = some block') (hop : op ∈ block'.operations) :
    op ∈ zeroInits vars zeros ∨ ∃ old ∈ phisAndOperations graph vars zeros out b block,
      ∃ lower upper middle next, RenamesOne zeros lower upper middle old op next := by
  obtain ⟨ops, hresult, hren⟩ := hbuilt.blocks hblock
  obtain rfl := Option.mem_unique hblock' hresult
  dsimp only at hop
  split at hop
  next =>
    rcases mem_append.mp hop with hop | hop
    · rcases mem_append.mp hop with hop | hop
      · exact .inr (hren.exists_one (takeWhile_subset _ hop))
      · exact .inl hop
    · exact .inr (hren.exists_one (dropWhile_subset _ hop))
  next => exact .inr (hren.exists_one hop)

/-- The phis of the result are those that were placed. -/
theorem exists_phi (hfresh : Unconstructed graph) (hblock : graph.blocks[b]? = some block)
    (hblock' : result.blocks[b]? = some block') (hop : op ∈ block'.operations) (hphi : op.isPhi) :
    ∃ var ∈ phiVars graph vars b, op.labels = block.predecessors ∧
      op.sources = (fedPhi zeros out block.predecessors var).sources := by
  rcases hbuilt.exists_renamed hblock hblock' hop with
    hinit | ⟨old, hmem, lower, upper, middle, next, hold⟩
  · obtain ⟨var, -, id, -, rfl⟩ := mem_zeroInits_iff.mp hinit
    cases hphi
  · obtain ⟨hinsn, -, hsrcs⟩ := (hold.substitutes (Nat.zero_le _)).same
    have hphi' : old.isPhi := by rwa [Operation.isPhi, ← hinsn]
    have hlabels : op.labels = old.labels := by cases hold <;> rfl
    rw [phisAndOperations_eq fun op hop => hfresh.phis op (mem_operations hblock hop)] at hmem
    rcases mem_append.mp hmem with hmem | hmem
    · obtain ⟨var, hvar, rfl⟩ := mem_map.mp hmem
      refine ⟨var, hvar, hlabels.trans (labels_fedPhi ..), ?_⟩
      rw [hsrcs, readSources, if_pos hphi']
    · rw [hfresh.phis old (mem_operations hblock hmem)] at hphi'
      cases hphi'

section

variable (hprep : Prepared graph) (hfresh : Unconstructed graph)
include hprep hfresh

theorem uses (hvars : collect graph = .ok vars) (hassigned : SingleAssignment graph)
    (hblock' : result.blocks[b]? = some block') (hops : block'.operations = before ++ op :: after)
    (hphi : op.isPhi = false) (hsrc : src ∈ op.sources) (hid : src.localId? = some id) :
    id ∈ definedLocals before ∨ ∃ c ≠ b, graph.Dominates c b ∧ DefinedIn result id c := by
  obtain ⟨block, hblock⟩ := hbuilt.origin hblock'
  obtain ⟨ops, hresult, hren⟩ := hbuilt.blocks hblock
  obtain rfl := Option.mem_unique hblock' hresult
  dsimp only at hops
  split at hops
  next hb =>
    rcases afterLoads_split hops with ⟨hmem, hload⟩ | hinit | ⟨first, second, rfl, hfirst, hinits⟩
    · -- argument loads read nothing
      obtain ⟨old, hmem', lower, upper, middle, next, hold⟩ := hren.exists_one hmem
      obtain ⟨hinsn, -, hsrcs⟩ := (hold.substitutes (Nat.zero_le _)).same
      have hphi' : old.isPhi = false := by rwa [Operation.isPhi, ← hinsn]
      rw [phisAndOperations_eq fun op hop => hfresh.phis op (mem_operations hblock hop)] at hmem'
      have hblockOp : old ∈ block.operations := by
        refine (mem_append.mp hmem').resolve_left fun h => ?_
        obtain ⟨var, -, rfl⟩ := mem_map.mp h
        simp [isPhi_fedPhi] at hphi'
      have hnone := (hprep.checked hblock).sources_of_load hblockOp (hinsn ▸ hload)
      rw [hsrcs, readSources, hphi', hnone] at hsrc
      simp at hsrc
    · obtain ⟨var, -, other, -, rfl⟩ := mem_zeroInits_iff.mp hinit
      rw [mem_singleton.mp hsrc] at hid
      cases hid
    · rcases hbuilt.use_cases hprep hfresh hvars hassigned hblock hren hphi hsrc
        hid with hmem | hother | ⟨reg, hoccurs, hzero⟩
      · exact .inl (hfirst hmem)
      · exact .inr hother
      · refine .inl (hinits ?_)
        obtain ⟨var, hvar, rfl⟩ := mem_map.mp hoccurs
        rw [definedLocals_zeroInits]
        exact mem_filterMap.mpr ⟨var, hvar, hzero⟩
  next hb =>
    rcases hbuilt.use_cases hprep hfresh hvars hassigned hblock (hops ▸ hren) hphi
      hsrc hid with hmem | hother | ⟨reg, hoccurs, hzero⟩
    · exact .inl hmem
    · exact .inr hother
    · exact .inr ⟨entry, Ne.symm hb, .entry b,
        hbuilt.definedIn_entry hprep.analyzed.nonempty hoccurs hzero⟩

theorem inputs (hblock' : result.blocks[b]? = some block') (hop : op ∈ block'.operations)
    (hphi : op.isPhi) {input : Nat × Operand} (hinput : input ∈ op.inputs)
    (hid : input.2.localId? = some id) :
    ∃ c, graph.Dominates c input.1 ∧ DefinedIn result id c := by
  obtain ⟨block, hblock⟩ := hbuilt.origin hblock'
  obtain ⟨var, hvar, hlabels, hsrcs⟩ := hbuilt.exists_phi hfresh hblock hblock' hop hphi
  have hinputs : op.inputs = (fedPhi zeros out block.predecessors var).inputs := by
    rw [Operation.inputs, Operation.inputs, hlabels, hsrcs, labels_fedPhi]
  rw [hinputs, inputs_fedPhi] at hinput
  obtain ⟨p, hp, rfl⟩ := mem_map.mp hinput
  have hlt : p < graph.size := by
    refine hprep.analyzed.mirrored.lt_size_of_predecessor (b := b) ?_
    rwa [predecessors_eq hblock]
  have hreach := hprep.reachable p hlt
  dsimp only at hid ⊢
  rcases localId?_resolve hid with hown | ⟨reg, hreg, hlookup | hzero⟩
  · cases hown
  · obtain ⟨c, habove, hdef⟩ := hbuilt.exists_definedIn hprep hreach hlookup
    exact ⟨c, (hprep.analyzed.immediate.above_iff hreach).mp habove, hdef⟩
  · cases hreg
    exact ⟨entry, .entry p, hbuilt.definedIn_entry hprep.analyzed.nonempty
      (mem_map.mpr ⟨var, (mem_phiVars_iff.mp hvar).1, rfl⟩) hzero⟩

theorem singleAssignment (hvars : collect graph = .ok vars) (hassigned : SingleAssignment graph)
    (hsame : SameEdges graph result) : SingleAssignment result := by
  refine ⟨hbuilt.once hfresh hvars hassigned.once, ?_, ?_⟩
  · intro b block' before after op hblock' hops hphi src hsrc id hid
    refine (hbuilt.uses hprep hfresh hvars hassigned hblock' hops hphi hsrc hid).imp_right ?_
    exact fun ⟨c, hne, hdom, hdef⟩ => ⟨c, hne, hsame.dominates_iff.mpr hdom, hdef⟩
  · intro b block' hblock' op hop hphi input hinput id hid
    obtain ⟨c, hdom, hdef⟩ := hbuilt.inputs hprep hfresh hblock' hop hphi hinput hid
    exact ⟨c, hsame.dominates_iff.mpr hdom, hdef⟩

end

theorem overLocals (hfresh : Unconstructed graph) : OverLocals result := by
  refine ⟨fun op hop opnd hopnd => ?_, fun b block' hblock' op hop hphi => ?_⟩
  · obtain ⟨block', hmem, hop⟩ := mem_flatMap.mp hop
    obtain ⟨b, hblock'⟩ := mem_blocks_iff.mp hmem
    obtain ⟨block, hblock⟩ := hbuilt.origin hblock'
    rcases hbuilt.exists_renamed hblock hblock' hop with
      hinit | ⟨old, hmem, lower, upper, middle, next, hold⟩
    · obtain ⟨var, -, id, -, rfl⟩ := mem_zeroInits_iff.mp hinit
      rcases mem_cons.mp hopnd with rfl | hopnd
      · rfl
      · rw [mem_singleton.mp hopnd]
        rfl
    · obtain ⟨hdest, hsrcs⟩ := hold.registers
      rcases mem_append.mp hopnd with hopnd | hopnd
      · rw [Option.mem_toList] at hopnd
        simpa [hopnd] using hdest
      · cases hphi : op.isPhi with
        | false =>
          have hinsn := (hold.substitutes (Nat.zero_le _)).same.1
          exact hsrcs (by rwa [Operation.isPhi, ← hinsn]) opnd hopnd
        | true =>
          obtain ⟨var, hvar, -, hfed⟩ := hbuilt.exists_phi hfresh hblock hblock' hop hphi
          rw [hfed, sources_fedPhi] at hopnd
          obtain ⟨p, hp, rfl⟩ := mem_map.mp hopnd
          exact register?_resolve (hbuilt.resolved_input hblock hvar hp)
  · obtain ⟨block, hblock⟩ := hbuilt.origin hblock'
    obtain ⟨var, -, hlabels, hsrcs⟩ := hbuilt.exists_phi hfresh hblock hblock' hop hphi
    obtain ⟨ops, hresult, -⟩ := hbuilt.blocks hblock
    obtain rfl := Option.mem_unique hblock' hresult
    refine ⟨hlabels, ?_⟩
    rw [hsrcs, hlabels, sources_fedPhi, length_map]

end Constructed

/-- Where no local is read, it is enough that each is defined once. -/
theorem singleAssignment_of_unread (honce : (definedLocals graph.operations).Nodup)
    (hphis : ∀ op ∈ graph.operations, op.isPhi = false)
    (hnone : ∀ op ∈ graph.operations, ∀ src ∈ op.sources, src.localId? = none) :
    SingleAssignment graph := by
  refine ⟨honce, fun b block before after op hblock hops _ src hsrc id hid => ?_,
    fun b block hblock op hop hphi => ?_⟩
  · have := hnone op (mem_operations hblock (by simp [hops])) src hsrc
    simp [this] at hid
  · simp [hphis op (mem_operations hblock hop)] at hphi

/-- The result of construction is verified, as long as the numbers of locals suffice. -/
theorem verify_of_construct (hprep : Prepared graph) (hfresh : Unconstructed graph)
    (hassigned : SingleAssignment graph) (hconstruct : construct graph = .ok result)
    (hbound : result.locals.count ≤ twoPow 32) :
    verify result = .ok () ∧ SingleAssignment result ∧ OverLocals result := by
  rcases exists_construct hprep with ⟨_, _, _, hmixed, -⟩ | ⟨other, hother, hlike, hspec⟩
  · rw [hconstruct] at hmixed
    cases hmixed
  · obtain rfl := Except.ok.inj (hconstruct.symm.trans hother)
    obtain ⟨vars, zeros, out, span, hvars, hbuilt⟩ := hspec hfresh.phis hbound
    have hsame := hlike.sameEdges
    have hsingle := hbuilt.singleAssignment hprep hfresh hvars hassigned hsame
    have hover := hbuilt.overLocals hfresh
    exact ⟨verify_eq_ok (hlike.analyzed hprep.analyzed) hsingle hover, hsingle, hover⟩

/-- Construction fails only at a register that is used both as an integer and as a float.
Otherwise its result is verified: over locals, each with a single definition that lies on
every path to its uses, and with one input for each predecessor in every phi. -/
theorem construct_verifies {src pruned : Graph} {sig : Validate.Signature}
    (hmirror : src.Mirrored) (hidx : src.Indexed)
    (hprepare : src.prepare sig = .ok pruned)
    (hanalyze : Dominance.analyze pruned = .ok graph) (hfresh : Unconstructed graph)
    (hassigned : SingleAssignment graph) :
    (∃ reg known used, construct graph =
        .error (.error (.unsupported (.mixedRegister reg known used))) ∧
      known.isInteger ≠ used.isInteger ∧
      .register reg known ∈ graph.operations.flatMap Operation.operands ∧
      .register reg used ∈ graph.operations.flatMap Operation.operands) ∨
    ∃ result, construct graph = .ok result ∧ (result.locals.count ≤ 2 ^ 32 →
        verify result = .ok () ∧ graph.intoSsa = .ok result ∧
          SingleAssignment result ∧ OverLocals result) := by
  have hprep := prepared_of_prepare hmirror hidx hprepare hanalyze
  rcases exists_construct hprep with hmixed | ⟨result, hresult, -, -⟩
  · exact Or.inl hmixed
  · refine Or.inr ⟨result, hresult, fun hbound => ?_⟩
    obtain ⟨hverify, hsingle, hover⟩ :=
      verify_of_construct hprep hfresh hassigned hresult hbound
    refine ⟨hverify, ?_, hsingle, hover⟩
    rw [Graph.intoSsa, hresult]
    change (verify result >>= fun _ => pure result) = _
    rw [hverify]
    rfl

/-- The local is defined in the entry and used in the loop. -/
theorem analyzedCountdown_singleAssignment : SingleAssignment analyzedCountdown := by
  have hphis : ∀ op ∈ analyzedCountdown.operations, op.isPhi = false := by decide
  have hentry : ∀ block, analyzedCountdown.blocks[0]? = some block → ∀ op ∈ block.operations,
      ∀ src ∈ op.sources, src.localId? = none := by decide
  have huses : ∀ op ∈ analyzedCountdown.operations, ∀ src ∈ op.sources,
      ∀ id ∈ src.localId?, id = 0 := by decide
  refine ⟨by decide, fun b block before after op hblock hops hphi src hsrc id hid => ?_,
    fun b block hblock op hop hphi => ?_⟩
  · have hop : op ∈ block.operations := by simp [hops]
    obtain rfl := huses op (mem_operations hblock hop) src hsrc id hid
    refine .inr ⟨entry, ?_, .entry b, ⟨_, rfl, by decide⟩⟩
    rintro rfl
    simp [hentry block hblock op hop src hsrc] at hid
  · simp [hphis op (mem_operations hblock hop)] at hphi

theorem construct_verifies_countdown : countdown.prepare ⟨[], some .i64⟩ = .ok countdown ∧
      Dominance.analyze countdown = .ok analyzedCountdown ∧ SingleAssignment analyzedCountdown ∧
      construct analyzedCountdown = .ok constructedCountdown ∧
      verify constructedCountdown = .ok () ∧
      analyzedCountdown.intoSsa = .ok constructedCountdown ∧
      SingleAssignment constructedCountdown ∧ OverLocals constructedCountdown := by
  refine ⟨prepare_countdown, analyze_countdown, analyzedCountdown_singleAssignment,
    construct_countdown, ?_⟩
  rcases construct_verifies countdown_mirrored countdown_indexed prepare_countdown
    analyze_countdown analyzedCountdown_unconstructed analyzedCountdown_singleAssignment with
    ⟨reg, known, used, herror, -⟩ | ⟨result, hresult, hverified⟩
  · rw [construct_countdown] at herror
    cases herror
  · obtain rfl := Except.ok.inj (construct_countdown.symm.trans hresult)
    exact hverified (by decide)

/-- A local that the table does not know of. -/
def undeclared : Graph where
  blocks := #[
    { index := 0
      operations := [.copy (.localVar 1 .i64) (.constant 5 .i64),
        .copy (.guest 0) (.constant 1 .i64),
        .copy (.guest 1) (.constant 2 .i64),
        .ret (.guest 1)] }]

def constructedUndeclared : Graph := undeclared.rewritten
  [[.copy (.localVar 1 .i64) (.constant 5 .i64), .copy (.localVar 0 .i64) (.constant 1 .i64),
    .copy (.localVar 1 .i64) (.constant 2 .i64),
    .ret (.localVar 1 .i64)]] ⟨.replicate 2 (some .i64)⟩

/-- Two ways meet that define a register, and a third over an edge that its target does not
know of. -/
def oneWayJoin : Graph where
  blocks := #[
    { index := 0
      operations := [.branchIf .eq (.constant 1 .i64) (.constant 2 .i64)]
      successors := [1, 2] },
    { index := 1
      operations := [.copy (.guest 0) (.constant 1 .i64),
        .branchIf .eq (.constant 1 .i64) (.constant 2 .i64)]
      successors := [4, 3]
      predecessors := [0] },
    { index := 2
      operations := [.copy (.guest 0) (.constant 2 .i64), .branch]
      successors := [4]
      predecessors := [0] },
    { index := 3, operations := [.branch], successors := [4] },
    { index := 4
      operations := [.ret (.guest 0)]
      predecessors := [1, 2, 3] }]

def analyzedOneWayJoin : Graph where
  blocks := oneWayJoin.blocks.mapIdx fun b block =>
    if b = 1 ∨ b = 2 then { block with immediateDominator := some 0, frontier := [4] }
    else if b = 4 then { block with immediateDominator := some 0 }
    else block

/-- The phi at the join keeps the register as its input for the way that the tree lacks. -/
def constructedOneWayJoin : Graph := analyzedOneWayJoin.rewritten
  [[.branchIf .eq (.constant 1 .i64) (.constant 2 .i64)],
    [.copy (.localVar 0 .i64) (.constant 1 .i64),
      .branchIf .eq (.constant 1 .i64) (.constant 2 .i64)],
    [.copy (.localVar 1 .i64) (.constant 2 .i64), .branch], [.branch],
    [.phi (.localVar 2 .i64) [(1, .localVar 0 .i64), (2, .localVar 1 .i64),
      (3, .guest 0)], .ret (.localVar 2 .i64)]]
  ⟨.replicate 3 (some .i64)⟩

/-- Numbers of undeclared locals are given out again, and registers survive at blocks
outside the tree. -/
theorem construct_not_verified : (undeclared.prepare ⟨[], some .i64⟩ = .ok undeclared ∧
      Dominance.analyze undeclared = .ok undeclared ∧
      (∀ op ∈ undeclared.operations, op.isPhi = false) ∧ SingleAssignment undeclared ∧
      construct undeclared = .ok constructedUndeclared ∧
      verify constructedUndeclared = .error (.error (.ssaViolation (.redefined 1)))) ∧
    oneWayJoin.prepare ⟨[], some .i64⟩ = .ok oneWayJoin ∧
      Dominance.analyze oneWayJoin = .ok analyzedOneWayJoin ∧
      Unconstructed analyzedOneWayJoin ∧ SingleAssignment analyzedOneWayJoin ∧
      construct analyzedOneWayJoin = .ok constructedOneWayJoin ∧
      verify constructedOneWayJoin = .error (.error (.ssaViolation (.registerUsed 4))) := by
  have hphis : ∀ op ∈ undeclared.operations, op.isPhi = false := by decide
  refine ⟨⟨by cbv, by cbv, hphis, singleAssignment_of_unread (by decide) hphis (by decide),
    by decide +kernel, by decide +kernel⟩, by cbv, by cbv, ⟨by decide, by decide⟩,
    singleAssignment_of_unread (by decide) (by decide) (by decide), by decide +kernel,
    by decide +kernel⟩

end GraphJit.SSA
