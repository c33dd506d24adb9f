import GraphJit.Compile.Validate
import GraphJit.Proofs.Pruning

/-! # Graphs that pass the checks

What the checks say about the operations of a block, and about the entry.
-/

namespace GraphJit.Validate

open List GraphJit.Graph

variable {sig : Signature} {block : Block}

variable {op : Operation} {loading : Bool} {order : List Nat}

theorem of_operations {ops : List Operation} (hcheck : operations sig block loading ops = .ok ())
    {before after : List Operation} (hops : ops = before ++ op :: after) :
    (op.instruction.isTerminator → after = []) ∧ shape block op = .ok () ∧
      particular sig block (loading && before.all (·.instruction.isLoadArgument)) op = .ok () := by
  induction ops generalizing loading before with
  | nil => simp at hops
  | cons first rest ih =>
    rw [operations] at hcheck
    by_cases hend : first.instruction.isTerminator && !rest.isEmpty
    · rw [if_pos hend] at hcheck
      simp [unsupported, bind, Except.bind] at hcheck
    · rw [if_neg hend] at hcheck
      simp only [bind_eq_ok] at hcheck
      obtain ⟨⟨⟩, hshape, ⟨⟩, hparticular, hrest⟩ := hcheck
      cases before with
      | nil =>
        obtain ⟨rfl, rfl⟩ : first = op ∧ rest = after := by simpa using hops
        refine ⟨fun hterm => ?_, hshape, by simpa using hparticular⟩
        simpa [hterm] using hend
      | cons head before =>
        obtain ⟨rfl, hrest'⟩ : first = head ∧ rest = before ++ op :: after := by
          simpa using hops
        simpa [Bool.and_assoc] using ih hrest hrest'

theorem of_shape (hcheck : shape block op = .ok ()) {writes : Bool} {count : Nat}
    (hshape : op.instruction.shape? = some (writes, count)) :
    op.destination.isSome = writes ∧ op.sources.length = count := by
  unfold shape at hcheck
  rw [hshape] at hcheck
  by_contra hne
  have hcond : op.destination.isSome ≠ writes ∨ op.sources.length ≠ count := by
    by_contra hboth
    exact hne (by simpa using hboth)
  simp [hcond, unsupported, bind, Except.bind] at hcheck

theorem of_particular_load (hcheck : particular sig block loading op = .ok ())
    (hload : op.instruction.isLoadArgument) : loading = true := by
  unfold Instruction.isLoadArgument at hload
  split at hload
  next index hinsn =>
    by_contra hnot
    simp [particular, hinsn, argumentLoad, hnot, unsupported] at hcheck
  next => simp at hload

theorem of_particular_phi (hcheck : particular sig block loading op = .ok ())
    (hphi : op.isPhi) : op.destination.isSome ∧ op.labels.length = op.sources.length := by
  have hinsn : op.instruction = .phi := by simpa [Operation.isPhi] using hphi
  have hboth : ¬op.destination = none ∧ op.sources.length = op.labels.length := by
    simpa [particular, hinsn, unsupported] using hcheck
  exact ⟨Option.isSome_iff_ne_none.mpr hboth.1, hboth.2.symm⟩

/-- A block that passed the checks. -/
structure Checked (block : Block) : Prop where
  terminator_last : ∀ ⦃before after : List Operation⦄ ⦃op : Operation⦄,
    block.operations = before ++ op :: after → op.instruction.isTerminator → after = []
  shape : ∀ op ∈ block.operations, ∀ ⦃writes count⦄, op.instruction.shape? = some (writes, count) →
      op.destination.isSome = writes ∧ op.sources.length = count
  loads_first : ∀ ⦃before after : List Operation⦄ ⦃op : Operation⦄,
    block.operations = before ++ op :: after → op.instruction.isLoadArgument →
      block.index = Graph.entry ∧ ∀ other ∈ before, other.instruction.isLoadArgument
  phis : ∀ op ∈ block.operations, op.isPhi →
    op.destination.isSome ∧ op.labels.length = op.sources.length
  ret_ends : ∀ ⦃op : Operation⦄, block.terminator? = some op → op.instruction = .ret →
    block.successors = []

/-- Argument loads read nothing. -/
theorem Checked.sources_of_load (hchecked : Checked block) (hop : op ∈ block.operations)
    (hload : op.instruction.isLoadArgument) : op.sources = [] := by
  have hshape : op.instruction.shape? = some (true, 0) := by
    cases hinsn : op.instruction <;> simp_all [Instruction.isLoadArgument, Instruction.shape?]
  exact length_eq_zero_iff.mp (hchecked.shape op hop hshape).2

theorem checked_of_block {graph : Graph}
    (hcheck : Validate.block graph sig block = .ok ()) : Checked block := by
  unfold Validate.block at hcheck
  simp only [bind_eq_ok] at hcheck
  obtain ⟨-, -, ⟨⟩, hops, hend⟩ := hcheck
  refine ⟨fun before after op heq => (of_operations hops heq).1, fun op hop writes count => ?_,
    fun before after op heq hload => ?_, fun op hop => ?_, fun op hterm hret => ?_⟩
  · obtain ⟨before, after, heq⟩ := append_of_mem hop
    exact of_shape (of_operations hops heq).2.1
  · simpa using of_particular_load (of_operations hops heq).2.2 hload
  · obtain ⟨before, after, heq⟩ := append_of_mem hop
    exact of_particular_phi (of_operations hops heq).2.2
  · by_contra hne
    simp [ending, hterm, hret, hne, unsupported] at hend

variable {graph : Graph}

theorem of_validate (hcheck : graph.validate sig = .ok ()) :
    0 < graph.size ∧ (∀ {b : Nat} {block : Block}, graph.blocks[b]? = some block → Checked block) ∧
      ∀ {order : List Nat}, graph.postorder = .ok order →
        ∀ p ∈ graph.predecessors Graph.entry, p ∉ order := by
  unfold validate at hcheck
  by_cases hsize : graph.size = 0
  · simp [hsize, unsupported] at hcheck
  · rw [if_neg hsize] at hcheck
    simp only [bind_eq_ok] at hcheck
    obtain ⟨⟨⟩, hblocks, hentry⟩ := hcheck
    refine ⟨Nat.pos_of_ne_zero hsize, fun hblock => ?_, fun horder p hp hmem => ?_⟩
    · exact checked_of_block (forM_eq_ok.mp hblocks _ (Graph.mem_blocks_iff.mpr ⟨_, hblock⟩))
    · unfold Validate.entry at hentry
      rw [horder] at hentry
      change (if _ then _ else _) = Except.ok () at hentry
      rw [if_pos (any_eq_true.mpr ⟨p, hp, by simpa using hmem⟩)] at hentry
      simp [unsupported] at hentry

/-! ## After dropping unreachable blocks -/

theorem keepOperation_instruction (order : List Nat) (op : Operation) :
    (keepOperation order op).instruction = op.instruction := by
  unfold keepOperation
  split <;> rfl

theorem keepOperation_of_not_phi (hphi : op.isPhi = false) : keepOperation order op = op := by
  simp [keepOperation, hphi]

/-- Dropping unreachable blocks keeps the shape of the others. -/
theorem Checked.of_keeps {new : Block} (hcheck : Checked block)
    (hkeeps : KeepsBlock order block new) : Checked new := by
  obtain ⟨keep, hops, hinsn, hdest, hother, hlength⟩ : ∃ keep : Operation → Operation,
      new.operations = block.operations.map keep ∧
      (∀ op, (keep op).instruction = op.instruction) ∧
      (∀ op, (keep op).destination = op.destination) ∧
      (∀ op, op.isPhi = false → keep op = op) ∧
      ∀ op, op.labels.length = op.sources.length →
        (keep op).labels.length = (keep op).sources.length := by
    rcases hkeeps.operations with hops | hops
    · exact ⟨id, by simpa using hops, fun _ => rfl, fun _ => rfl, fun _ _ => rfl, fun _ h => h⟩
    · refine ⟨keepOperation order, hops, keepOperation_instruction order, fun op => ?_,
        fun op => keepOperation_of_not_phi, fun op hlength => ?_⟩
      · unfold keepOperation
        split <;> rfl
      · unfold keepOperation
        split
        next => simp
        next => exact hlength
  have hphi : ∀ op, (keep op).isPhi = op.isPhi := fun op => by
    simp only [Operation.isPhi, hinsn]
  refine ⟨fun before after op heq hterm => ?_, fun op hop writes count hshape => ?_,
    fun before after op heq hload => ?_, fun op hop hop' => ?_, fun op hterm hret => ?_⟩
  · obtain ⟨first, rest, hsplit, rfl, hrest⟩ := map_eq_append_iff.mp (hops ▸ heq)
    obtain ⟨old, tail, rfl, rfl, rfl⟩ := map_eq_cons_iff.mp hrest
    rw [hcheck.terminator_last hsplit (hinsn old ▸ hterm), map_nil]
  · obtain ⟨old, hold, rfl⟩ := mem_map.mp (hops ▸ hop)
    have hnot : old.isPhi = false := by
      rw [← hphi]
      by_contra h
      have : (keep old).instruction = .phi := by simpa [Operation.isPhi] using h
      simp [this, Instruction.shape?] at hshape
    rw [hother old hnot] at hshape ⊢
    exact hcheck.shape old hold hshape
  · obtain ⟨first, rest, hsplit, rfl, hrest⟩ := map_eq_append_iff.mp (hops ▸ heq)
    obtain ⟨old, tail, rfl, rfl, rfl⟩ := map_eq_cons_iff.mp hrest
    obtain ⟨hindex, hbefore⟩ := hcheck.loads_first hsplit (hinsn old ▸ hload)
    refine ⟨by rw [hkeeps.index, hindex]; rfl, fun other hmem => ?_⟩
    obtain ⟨older, holder, rfl⟩ := mem_map.mp hmem
    rw [hinsn]
    exact hbefore older holder
  · obtain ⟨old, hold, rfl⟩ := mem_map.mp (hops ▸ hop)
    obtain ⟨hsome, hlabels⟩ := hcheck.phis old hold (hphi old ▸ hop')
    exact ⟨by rw [hdest]; exact hsome, hlength old hlabels⟩
  · have hlast : ∃ old, block.terminator? = some old ∧ old.instruction = .ret := by
      unfold Block.terminator? at hterm ⊢
      rw [hops, getLast?_map] at hterm
      obtain ⟨hmap, hend⟩ := Option.filter_eq_some_iff.mp hterm
      obtain ⟨old, hold, rfl⟩ := Option.map_eq_some_iff.mp hmap
      rw [hinsn] at hend hret
      exact ⟨old, Option.filter_eq_some_iff.mpr ⟨hold, hend⟩, hret⟩
    obtain ⟨old, hold, hret'⟩ := hlast
    rw [hkeeps.successors, hcheck.ret_ends hold hret']
    rfl

end GraphJit.Validate
