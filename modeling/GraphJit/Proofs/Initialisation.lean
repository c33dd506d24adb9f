import GraphJit.Proofs.Construction
import GraphJit.Proofs.PhiRemoval
import GraphJit.Proofs.Verification
import Mathlib.Data.List.Permutation

/-! # Locals are written before they are read

In a verified graph whose phis have an input for each edge, every local is written on
every path to its uses. A phi reads at the end of its predecessors, which is where its
copies go, so removing phis keeps this.
-/

namespace GraphJit.SSA

open GraphJit.Graph Dominance List

/-- On every path, operations read locals only that earlier operations wrote. -/
def Initialised (graph : Graph) : Prop :=
  ∀ ⦃b : Nat⦄ ⦃visited : List Nat⦄ ⦃block : Block⦄ ⦃before after : List Operation⦄ ⦃op : Operation⦄,
    graph.Path b visited → graph.blocks[b]? = some block → block.operations = before ++ op :: after →
    ∀ src ∈ op.sources, ∀ id, src.localId? = some id →
      id ∈ definedLocals before ∨ ∃ c ∈ visited.tail, DefinedIn graph id c

/-- Every phi has an input for each edge into its block, and none stands in the entry. -/
structure PhisFed (graph : Graph) : Prop where
  entry : graph.phis entry = []
  labels : ∀ ⦃b : Nat⦄, ∀ op ∈ graph.phis b, op.labels.Perm (graph.predecessors b)

/-- Graphs with phis in which every local is written on the way to its uses. Inputs of phis
are used at the end of the block that they come from. -/
structure Settled (graph : Graph) : Prop where
  mirrored : graph.Mirrored
  entry_free : graph.predecessors Graph.entry = []
  formed : graph.PhisFormed
  fed : PhisFed graph
  silent : ∀ ⦃b : Nat⦄ ⦃block : Block⦄, graph.blocks[b]? = some block → block.successors ≠ [] →
    ∀ op ∈ block.operations, op.instruction.isTerminator → op.destination = none
  uses : ∀ ⦃b : Nat⦄ ⦃visited : List Nat⦄ ⦃block : Block⦄ ⦃before after : List Operation⦄
    ⦃op : Operation⦄, graph.Path b visited → graph.blocks[b]? = some block →
    block.operations = before ++ op :: after → op.isPhi = false →
    ∀ src ∈ op.sources, ∀ id, src.localId? = some id →
      id ∈ definedLocals before ∨ ∃ c ∈ visited.tail, DefinedIn graph id c
  inputs : ∀ ⦃b : Nat⦄, ∀ op ∈ graph.phis b, ∀ input ∈ op.inputs, ∀ id,
    input.2.localId? = some id → ∀ visited, graph.Path input.1 visited →
      ∃ c ∈ visited, DefinedIn graph id c

variable {graph result : Graph}

theorem Settled.lowerable (hsettled : Settled graph) : Lowerable graph where
  mirrored := hsettled.mirrored
  formed := hsettled.formed
  labels _ op hop _ hlabel :=
    hsettled.mirrored.lt_size_of_predecessor ((hsettled.fed.labels op hop).mem_iff.mp hlabel)

variable {b pos : Nat} {op old new : Operation} {block : Block} {before after ops : List Operation}
  {visited : List Nat}

/-- A block with a phi is reached along an edge. -/
theorem Settled.ne_entry (hsettled : Settled graph) (hop : op ∈ graph.phis b) :
    b ≠ Graph.entry := by
  rintro rfl
  rw [hsettled.fed.entry] at hop
  cases hop

theorem path_cases (hpath : graph.Path b visited) : (b = Graph.entry ∧ visited = [Graph.entry]) ∨
      ∃ a before, graph.Path a before ∧ graph.Edge a b ∧ visited = b :: before := by
  cases hpath with
  | entry => exact .inl ⟨rfl, rfl⟩
  | step hpath hedge => exact .inr ⟨_, _, hpath, hedge, rfl⟩

theorem mem_tail_of_path {c : Nat} (hpath : graph.Path b visited) (hmem : c ∈ visited)
    (hne : c ≠ b) : c ∈ visited.tail := by
  rcases path_cases hpath with ⟨rfl, rfl⟩ | ⟨a, before, -, -, rfl⟩
  · exact absurd (mem_singleton.mp hmem) hne
  · exact (mem_cons.mp hmem).resolve_left hne

/-! ## Splitting an edge -/

theorem definedLocals_labels (labels : Operation → List Nat) (ops : List Operation) :
    definedLocals (ops.map fun op => { op with labels := labels op }) = definedLocals ops := by
  rw [definedLocals, filterMap_map]
  rfl

/-- An operation of a rerouted block, and the one that it comes from. -/
theorem of_reroute_append {src target mid : Nat}
    (hops : (reroute src target mid b block).operations = before ++ op :: after) :
    ∃ before' op' after', block.operations = before' ++ op' :: after' ∧
      definedLocals before = definedLocals before' ∧ op.sources = op'.sources ∧
      op.isPhi = op'.isPhi := by
  obtain ⟨labels, hmap⟩ := exists_labels src target mid b block
  rw [hmap] at hops
  obtain ⟨before', rest, hblock, rfl, hrest⟩ := map_eq_append_iff.mp hops
  obtain ⟨op', after', rfl, rfl, rfl⟩ := map_eq_cons_iff.mp hrest
  exact ⟨before', op', after', hblock, definedLocals_labels .., rfl, rfl⟩

section Split

variable {src target : Nat} (hsplit : SplitsInto graph src target result)
include hsplit

theorem SplitsInto.definedIn {id c : Nat} (hdef : DefinedIn graph id c) :
    DefinedIn result id c := by
  obtain ⟨block, hblock, hid⟩ := hdef
  obtain ⟨labels, hops⟩ := exists_labels src target graph.size c block
  exact ⟨_, hsplit.kept hblock, by rwa [hops, definedLocals_labels]⟩

variable (hsettled : Settled graph) (hedge : target ∈ graph.successors src)
include hsettled hedge

variable {b : Nat} {visited : List Nat} {op : Operation}

/-- A path without the new block is a path of the old graph. One that ends in the new block
has come from the source of the edge. -/
theorem SplitsInto.path (hpath : result.Path b visited) :
    (b ≠ graph.size → graph.Path b (visited.filter (· ≠ graph.size))) ∧
      (b = graph.size → graph.Path src (visited.tail.filter (· ≠ graph.size))) := by
  have hsrc := Graph.source_lt_size hedge
  have htarget := hsettled.mirrored.lt_size_of_successor hedge
  induction hpath with
  | entry =>
    have hentry : Graph.entry ≠ graph.size := by
      unfold Graph.entry
      omega
    refine ⟨fun _ => ?_, fun h => absurd h hentry⟩
    rw [filter_cons_of_pos (by simpa using hentry)]
    exact .entry
  | @step a b visited hpath hnext ih =>
    unfold Graph.Edge at hnext
    rw [hsplit.successors] at hnext
    by_cases ha : a = graph.size
    · -- Behind the new block the path goes on at the target of the edge.
      rw [if_pos ha, mem_singleton] at hnext
      subst hnext
      refine ⟨fun hne => ?_, fun h => absurd h (Nat.ne_of_lt htarget)⟩
      have hsame : visited.filter (· ≠ graph.size) = visited.tail.filter (· ≠ graph.size) := by
        rcases path_cases hpath with ⟨hentry, rfl⟩ | ⟨-, before, -, -, rfl⟩
        · have hzero : graph.size = 0 := ha.symm.trans hentry
          omega
        · simp [ha]
      rw [filter_cons_of_pos (by simpa using hne), hsame]
      exact .step (ih.2 ha) hedge
    · rw [if_neg ha] at hnext
      have hold : b ≠ graph.size → b ∈ graph.successors a := by
        intro hne
        split at hnext
        next hsame =>
          subst hsame
          have hcount := count_replace graph.size hedge b
          rw [if_neg hne] at hcount
          have hpos := count_pos_iff.mpr hnext
          exact count_pos_iff.mp (by omega)
        next => exact hnext
      refine ⟨fun hne => ?_, fun heq => ?_⟩
      · rw [filter_cons_of_pos (by simpa using hne)]
        exact .step (ih.1 ha) (hold hne)
      · have hsame : a = src := by
          by_contra hother
          rw [if_neg hother] at hnext
          have := hsettled.mirrored.lt_size_of_successor hnext
          omega
        exact hsame ▸ ih.1 ha

theorem SplitsInto.ne_entry : target ≠ Graph.entry := by
  rintro rfl
  have hmem := hsettled.mirrored.mem_iff.mp hedge
  rw [hsettled.entry_free] at hmem
  cases hmem

/-- A phi of the new graph, and the one that it comes from. -/
theorem SplitsInto.phis_cases (hop : op ∈ result.phis b) : b ≠ target ∧ op ∈ graph.phis b ∨
      b = target ∧ ∃ old ∈ graph.phis b,
        op = { old with labels := old.labels.replace src graph.size } := by
  by_cases hb : b = target
  · subst hb
    rw [hsplit.phis_target (hsettled.mirrored.lt_size_of_successor hedge)] at hop
    obtain ⟨old, hold, rfl⟩ := mem_map.mp hop
    obtain ⟨-, -, -, hphi⟩ := Graph.mem_phis_iff.mp hold
    exact .inr ⟨rfl, old, hold, if_pos hphi⟩
  · exact .inl ⟨hb, hsplit.phis_of_ne hb ▸ hop⟩

theorem SplitsInto.phisFed : PhisFed result := by
  refine ⟨?_, fun b op hop => ?_⟩
  · rw [hsplit.phis_of_ne (hsplit.ne_entry hsettled hedge).symm]
    exact hsettled.fed.entry
  · rw [hsplit.predecessors]
    rcases hsplit.phis_cases hsettled hedge hop with ⟨hne, hold⟩ | ⟨rfl, old, hold, rfl⟩
    · obtain ⟨block, hblock, -⟩ := Graph.mem_phis_iff.mp hold
      rw [if_neg (Nat.ne_of_lt (Graph.lt_size hblock)), if_neg hne]
      exact hsettled.fed.labels op hold
    · have hperm := hsettled.fed.labels old hold
      have hmem := hsettled.mirrored.mem_iff.mp hedge
      rw [if_neg (Nat.ne_of_lt (Graph.target_lt_size hmem)), if_pos rfl, perm_iff_count]
      intro x
      have hleft := count_replace graph.size (hperm.mem_iff.mpr hmem) x
      have hright := count_replace graph.size hmem x
      have hsame := perm_iff_count.mp hperm x
      dsimp only
      omega

omit hedge in
theorem SplitsInto.silent (hblock : result.blocks[b]? = some block)
    (hsucc : block.successors ≠ []) (op : Operation) (hop : op ∈ block.operations)
    (hterm : op.instruction.isTerminator) : op.destination = none := by
  rcases hsplit.cases hblock with ⟨old, hold, rfl⟩ | ⟨-, rfl⟩
  · have hsucc' : old.successors ≠ [] := by
      intro hnil
      apply hsucc
      simp [reroute, hnil]
    obtain ⟨labels, hops⟩ := exists_labels src target graph.size b old
    rw [hops] at hop
    obtain ⟨first, hfirst, rfl⟩ := mem_map.mp hop
    exact hsettled.silent hold hsucc' first hfirst hterm
  · cases mem_singleton.mp hop
    rfl

theorem SplitsInto.uses (hpath : result.Path b visited) (hblock : result.blocks[b]? = some block)
    (hops : block.operations = before ++ op :: after) (hphi : op.isPhi = false) (opnd : Operand)
    (hopnd : opnd ∈ op.sources) (id : Nat) (hid : opnd.localId? = some id) :
    id ∈ definedLocals before ∨ ∃ c ∈ visited.tail, DefinedIn result id c := by
  rcases hsplit.cases hblock with ⟨old, hold, rfl⟩ | ⟨-, rfl⟩
  · obtain ⟨before', op', after', hold', hbefore, hsrcs, hphi'⟩ := of_reroute_append hops
    have hne : b ≠ graph.size := Nat.ne_of_lt (Graph.lt_size hold)
    have hshort := (hsplit.path hsettled hedge hpath).1 hne
    rw [hbefore]
    refine (hsettled.uses hshort hold hold' (hphi' ▸ hphi) opnd (hsrcs ▸ hopnd) id hid).imp_right
      fun ⟨c, hc, hdef⟩ => ⟨c, ?_, hsplit.definedIn hdef⟩
    rcases path_cases hpath with ⟨rfl, rfl⟩ | ⟨a, earlier, -, -, rfl⟩
    · simp [hne] at hc
    · rw [filter_cons_of_pos (by simpa using hne)] at hc
      exact mem_of_mem_filter hc
  · cases before with
    | nil =>
      cases hops
      cases hopnd
    | cons first rest => simp [edgeBlock] at hops

theorem SplitsInto.inputs (op : Operation) (hop : op ∈ result.phis b) (input : Nat × Operand)
    (hinput : input ∈ op.inputs) (id : Nat) (hid : input.2.localId? = some id) (visited : List Nat)
    (hpath : result.Path input.1 visited) : ∃ c ∈ visited, DefinedIn result id c := by
  have hlt : ∀ old ∈ graph.phis b, ∀ label ∈ old.labels, label ≠ graph.size :=
    fun old hold label hlabel => Nat.ne_of_lt (hsettled.lowerable.labels b old hold label hlabel)
  have hpaths := hsplit.path hsettled hedge hpath
  rcases hsplit.phis_cases hsettled hedge hop with ⟨-, hold⟩ | ⟨-, old, hold, rfl⟩
  · obtain ⟨c, hc, hdef⟩ := hsettled.inputs op hold input hinput id hid _
      (hpaths.1 (hlt op hold _ (of_mem_zip hinput).1))
    exact ⟨c, mem_of_mem_filter hc, hsplit.definedIn hdef⟩
  · rcases mem_zip_replace hinput with hsame | ⟨hnew, hfrom⟩
    · obtain ⟨c, hc, hdef⟩ := hsettled.inputs old hold input hsame id hid _
        (hpaths.1 (hlt old hold _ (of_mem_zip hsame).1))
      exact ⟨c, mem_of_mem_filter hc, hsplit.definedIn hdef⟩
    · obtain ⟨c, hc, hdef⟩ := hsettled.inputs old hold _ hfrom id hid _ (hpaths.2 hnew)
      exact ⟨c, mem_of_mem_tail (mem_of_mem_filter hc), hsplit.definedIn hdef⟩

theorem Settled.split : Settled result where
  mirrored := hsplit.mirrored hsettled.mirrored hedge
  entry_free := by
    have hne : Graph.entry ≠ graph.size := by
      have := Graph.source_lt_size hedge
      unfold Graph.entry
      omega
    rw [hsplit.predecessors, if_neg hne, if_neg (hsplit.ne_entry hsettled hedge).symm]
    exact hsettled.entry_free
  formed b op hop := by
    rcases hsplit.phis_cases hsettled hedge hop with ⟨-, hold⟩ | ⟨-, old, hold, rfl⟩
    · exact hsettled.formed b op hold
    · simpa using hsettled.formed b old hold
  fed := hsplit.phisFed hsettled hedge
  silent _ _ := hsplit.silent hsettled
  uses _ _ _ _ _ _ := hsplit.uses hsettled hedge
  inputs _ := hsplit.inputs hsettled hedge

end Split

/-! ## Turning a phi into copies -/

/-- An element of a list of two parts stands in one of them. -/
theorem append_eq_append_cons {α : Type} {first second before after : List α} {item : α}
    (heq : first ++ second = before ++ item :: after) :
    (∃ rest, first = before ++ item :: rest ∧ after = rest ++ second) ∨
      ∃ front, before = first ++ front ∧ second = front ++ item :: after := by
  rcases append_eq_append_iff.mp heq with ⟨front, hbefore, hsecond⟩ | ⟨rest, hfirst, hafter⟩
  · exact .inr ⟨front, hbefore, hsecond⟩
  · cases rest with
    | nil =>
      rw [append_nil] at hfirst
      exact .inr ⟨[], by rw [hfirst, append_nil], hafter.symm⟩
    | cons found rest =>
      obtain ⟨rfl, rfl⟩ := cons_eq_cons.mp hafter
      exact .inl ⟨rest, hfirst, rfl⟩

section

variable (hold : ops[pos]? = some old) (hdest : new.destination = old.destination)
include hold hdest

theorem definedLocals_set : definedLocals (ops.set pos new) = definedLocals ops := by
  obtain ⟨hlt, hget⟩ := List.getElem?_eq_some_iff.mp hold
  have hset : ops.set pos new = ops.take pos ++ new :: ops.drop (pos + 1) :=
    set_eq_take_append_cons_drop.trans (if_pos hlt)
  have hops : ops = ops.take pos ++ old :: ops.drop (pos + 1) := by
    rw [← hget, getElem_cons_drop, take_append_drop]
  rw [hset]
  conv_rhs => rw [hops]
  simp only [definedLocals, filterMap_append, filterMap_cons, hdest]

/-- An operation of a list in which one was exchanged for another with the same destination. -/
theorem of_set_append (hset : ops.set pos new = before ++ op :: after) :
    ∃ before' op' after', ops = before' ++ op' :: after' ∧
      definedLocals before' = definedLocals before ∧ (op = op' ∨ op = new ∧ op' = old) := by
  obtain ⟨hlt, hget⟩ := List.getElem?_eq_some_iff.mp hold
  have hops : ops = ops.take pos ++ old :: ops.drop (pos + 1) := by
    rw [← hget, getElem_cons_drop, take_append_drop]
  rw [set_eq_take_append_cons_drop, if_pos hlt] at hset
  rcases append_eq_append_cons hset with ⟨rest, hfirst, -⟩ | ⟨front, rfl, hsecond⟩
  · refine ⟨before, op, rest ++ old :: ops.drop (pos + 1), ?_, rfl, .inl rfl⟩
    conv_lhs => rw [hops, hfirst]
    simp
  · cases front with
    | nil =>
      obtain ⟨rfl, -⟩ := cons_eq_cons.mp hsecond
      exact ⟨ops.take pos, old, ops.drop (pos + 1), hops, by rw [append_nil],
        .inr ⟨rfl, rfl⟩⟩
    | cons first front =>
      obtain ⟨rfl, hdrop⟩ := cons_eq_cons.mp hsecond
      refine ⟨ops.take pos ++ old :: front, op, after, ?_, ?_, .inl rfl⟩
      · conv_lhs => rw [hops, hdrop]
        simp
      · simp only [definedLocals, filterMap_append, filterMap_cons, hdest]

end

/-- An operation of a block with copies is one of them, or one of the block's own with at least
the same definitions before it. -/
theorem of_withCopies_append {copies : List Operation}
    (hops : (withCopies copies block).operations = before ++ op :: after) : op ∈ copies ∧
        definedLocals (block.operations.take block.insertionPoint) ⊆ definedLocals before ∨
      ∃ before' after', block.operations = before' ++ op :: after' ∧
        definedLocals before' ⊆ definedLocals before := by
  have hblock := (take_append_drop block.insertionPoint block.operations).symm
  unfold withCopies at hops
  dsimp only at hops
  generalize block.operations.take block.insertionPoint = body at hblock hops ⊢
  generalize block.operations.drop block.insertionPoint = tail at hblock hops
  rw [append_assoc] at hops
  rcases append_eq_append_cons hops with ⟨rest, rfl, -⟩ | ⟨front, rfl, hrest⟩
  · exact .inr ⟨before, rest ++ tail, by rw [hblock]; simp, fun _ h => h⟩
  · rcases append_eq_append_cons hrest with ⟨rest, rfl, -⟩ | ⟨more, rfl, rfl⟩
    · refine .inl ⟨by simp, ?_⟩
      rw [definedLocals_append]
      exact subset_append_left ..
    · refine .inr ⟨body ++ more, after, by rw [hblock]; simp, ?_⟩
      simp only [definedLocals_append]
      intro id hid
      rcases mem_append.mp hid with hbody | hmore
      · exact mem_append_left _ hbody
      · exact mem_append_right _ (mem_append_right _ hmore)

theorem definedLocals_take_insertionPoint
    (hsilent : ∀ op ∈ block.operations, op.instruction.isTerminator → op.destination = none) :
    definedLocals (block.operations.take block.insertionPoint) = definedLocals block.operations := by
  rcases insertionPoint_cases block with ⟨body, op, hops, hterm, -, hpoint⟩ | ⟨-, hpoint⟩
  · have hnone := hsilent op (by simp [hops]) hterm
    rw [hpoint, hops, take_left, definedLocals_append]
    simp [definedLocals, hnone]
  · rw [hpoint, take_length]

/-- The block in which the phi has become a copy, before copies are put into it. -/
def exchanged (temp : Nat) (dest : Operand) (b pos q : Nat) (block : Block) :
    Block :=
  { block with
    operations := if q = b then
        block.operations.set pos (.copy dest (.localVar temp dest.type))
      else block.operations }

section Lower

variable {phi : Operation} {dest : Operand} {temp b pos : Nat}

variable {q : Nat} {block : Block} {op : Operation} {before after : List Operation}

theorem mem_exchanged (hop : op ∈ (exchanged temp dest b pos q block).operations) :
    op ∈ block.operations ∨ op = .copy dest (.localVar temp dest.type) := by
  unfold exchanged at hop
  dsimp only at hop
  split at hop
  next => exact mem_or_eq_of_mem_set hop
  next => exact .inl hop

variable (hphi : PhiAt graph phi dest b pos)
include hphi

theorem definedLocals_exchanged (temp : Nat) (hblock : graph.blocks[q]? = some block) :
    definedLocals (exchanged temp dest b pos q block).operations =
      definedLocals block.operations := by
  unfold exchanged
  dsimp only
  split
  next hq =>
    subst hq
    exact definedLocals_set (hphi.place hblock) hphi.destination.symm
  next => rfl

/-- An operation of a lowered block: a copy into the temporary, the copy that took the place of
the phi, or an operation that was there before. -/
theorem of_loweredBlock_append (hblock : graph.blocks[q]? = some block)
    (hops : (loweredBlock temp phi dest b pos q block).operations = before ++ op :: after) :
    (op ∈ copiesFor (.localVar temp dest.type) phi.inputs q ∧
        ((∀ op ∈ block.operations, op.instruction.isTerminator → op.destination = none) →
          definedLocals block.operations ⊆ definedLocals before)) ∨
      q = b ∧ op = .copy dest (.localVar temp dest.type) ∨
      ∃ before' after', block.operations = before' ++ op :: after' ∧
        definedLocals before' ⊆ definedLocals before := by
  have hexchanged := definedLocals_exchanged hphi temp hblock
  have hcopies : (withCopies (copiesFor (.localVar temp dest.type) phi.inputs q)
      (exchanged temp dest b pos q block)).operations = before ++ op :: after :=
    hops
  -- a copy at the end, or an operation of the block in which the phi is exchanged
  rcases of_withCopies_append hcopies with ⟨hcopy, hbody⟩ | ⟨before', after', hops', hsubset⟩
  · refine .inl ⟨hcopy, fun hsilent => ?_⟩
    rw [← hexchanged, ← definedLocals_take_insertionPoint]
    · exact hbody
    · intro other hother hterm
      rcases mem_exchanged hother with hold | rfl
      · exact hsilent other hold hterm
      · cases hterm
  · right
    unfold exchanged at hops'
    dsimp only at hops'
    split at hops'
    next hq =>
      subst hq
      obtain ⟨first, op', second, hold, hdef, hsame⟩ :=
        of_set_append (hphi.place hblock) hphi.destination.symm hops'
      rcases hsame with rfl | ⟨rfl, -⟩
      · exact .inr ⟨first, second, hold, hdef ▸ hsubset⟩
      · exact .inl ⟨rfl, rfl⟩
    next => exact .inr ⟨before', after', hops', hsubset⟩

theorem PhiAt.mem_phis (hb : b < graph.size) : phi ∈ graph.phis b := by
  obtain ⟨block, hblock⟩ := Graph.exists_block hb
  exact Graph.mem_phis_iff.mpr ⟨block, hblock, mem_of_getElem? (hphi.place hblock), hphi.isPhi⟩

variable (hlower : LowersThrough temp graph phi dest b pos result)
include hlower

theorem LowersThrough.definedIn {id c : Nat} (hdef : DefinedIn graph id c) :
    DefinedIn result id c := by
  obtain ⟨block, hblock, hid⟩ := hdef
  refine ⟨_, hlower.kept hblock, ?_⟩
  rw [← definedLocals_exchanged hphi temp hblock] at hid
  obtain ⟨place, op, hop, hdefs⟩ := mem_definedLocals_iff.mp hid
  obtain ⟨place', hplace'⟩ := mem_iff_getElem?.mp (mem_withCopies.mpr (.inl (mem_of_getElem? hop)))
  exact mem_definedLocals_iff.mpr ⟨place', op, hplace', hdefs⟩

variable (hsettled : Settled graph) (hb : b < graph.size)
include hsettled hb

theorem LowersThrough.definedIn_temporary {a : Nat} (ha : a ∈ graph.predecessors b) :
    DefinedIn result temp a := by
  have hmem := hphi.mem_phis hb
  have hlabel : a ∈ phi.labels := (hsettled.fed.labels phi hmem).mem_iff.mpr ha
  obtain ⟨k, hk⟩ := mem_iff_getElem?.mp hlabel
  have hlength := (hsettled.formed b phi hmem).2
  have hlt : k < phi.sources.length := hlength ▸ (List.getElem?_eq_some_iff.mp hk).1
  have hinput : (a, phi.sources[k]) ∈ phi.inputs := by
    refine mem_of_getElem? (i := k) ?_
    simp [Operation.inputs, getElem?_zip_eq_some, hk]
  obtain ⟨block, hblock⟩ := Graph.exists_block (hsettled.mirrored.lt_size_of_predecessor ha)
  refine ⟨_, hlower.kept hblock, ?_⟩
  have hcopy : Operation.copy (.localVar temp dest.type) phi.sources[k] ∈
      copiesFor (.localVar temp dest.type) phi.inputs a :=
    mem_map.mpr ⟨_, mem_filter.mpr ⟨hinput, by simp⟩, rfl⟩
  obtain ⟨place, hplace⟩ := mem_iff_getElem?.mp (mem_withCopies.mpr (.inr hcopy))
  exact mem_definedLocals_iff.mpr ⟨place, _, hplace, rfl⟩

theorem LowersThrough.uses (hpath : result.Path q visited)
    (hblock : result.blocks[q]? = some block) (hops : block.operations = before ++ op :: after)
    (hop : op.isPhi = false) (opnd : Operand) (hopnd : opnd ∈ op.sources) (id : Nat)
    (hid : opnd.localId? = some id) :
    id ∈ definedLocals before ∨ ∃ c ∈ visited.tail, DefinedIn result id c := by
  rw [hlower.path_iff] at hpath
  have hmem := hphi.mem_phis hb
  obtain ⟨old, hold, rfl⟩ := hlower.cases hblock
  rcases of_loweredBlock_append hphi hold hops with
    ⟨hcopy, hbody⟩ | ⟨rfl, rfl⟩ | ⟨before', after', hops', hsubset⟩
  · -- A copy at the end of a predecessor reads an input, which is set by then.
    obtain ⟨input, hinput, rfl⟩ := mem_map.mp hcopy
    obtain ⟨hmember, hlabel⟩ := mem_filter.mp hinput
    obtain rfl : input.1 = q := by simpa using hlabel
    obtain rfl : opnd = input.2 := by simpa [Operation.copy] using hopnd
    have hedge : b ∈ graph.successors input.1 := hsettled.mirrored.mem_iff.mpr
      ((hsettled.fed.labels phi hmem).mem_iff.mp (of_mem_zip hmember).1)
    have hsucc : old.successors ≠ [] := by
      rw [← Graph.successors_eq hold]
      exact ne_nil_of_mem hedge
    obtain ⟨c, hc, hdef⟩ := hsettled.inputs phi hmem input hmember id hid visited hpath
    by_cases hne : c = input.1
    · subst hne
      obtain ⟨other, hother, hid⟩ := hdef
      obtain rfl : old = other := Option.mem_unique hold hother
      exact .inl (hbody (hsettled.silent hold hsucc) hid)
    · exact .inr ⟨c, mem_tail_of_path hpath hc hne, hlower.definedIn hphi hdef⟩
  · -- The copy in place of the phi reads the temporary, which the last block has set.
    obtain rfl : opnd = .localVar temp dest.type := by
      simpa [Operation.copy] using hopnd
    obtain rfl : temp = id := by simpa [Operand.localId?] using hid
    rcases path_cases hpath with ⟨hentry, -⟩ | ⟨a, earlier, hearlier, hedge, rfl⟩
    · exact absurd hentry (hsettled.ne_entry hmem)
    · exact .inr ⟨a, hearlier.mem_self, hlower.definedIn_temporary hphi hsettled hb
        (hsettled.mirrored.mem_iff.mp hedge)⟩
  · rcases hsettled.uses hpath hold hops' hop opnd hopnd id hid with
      hearlier | ⟨c, hc, hdef⟩
    · exact .inl (hsubset hearlier)
    · exact .inr ⟨c, hc, hlower.definedIn hphi hdef⟩

omit hphi hb in
theorem LowersThrough.silent (hblock : result.blocks[q]? = some block)
    (hsucc : block.successors ≠ []) (op : Operation) (hop : op ∈ block.operations)
    (hterm : op.instruction.isTerminator) : op.destination = none := by
  obtain ⟨old, hold, rfl⟩ := hlower.cases hblock
  rcases mem_loweredBlock hop with hop | rfl | ⟨src, -, rfl⟩
  · exact hsettled.silent hold hsucc op hop hterm
  · cases hterm
  · cases hterm

theorem Settled.lower : Settled result where
  mirrored := hlower.sameEdges.mirrored hsettled.mirrored
  entry_free := by
    rw [hlower.sameEdges.predecessors]
    exact hsettled.entry_free
  formed q op hop := hsettled.formed q op (hlower.mem_phis hop)
  fed := by
    refine ⟨eq_nil_iff_forall_not_mem.mpr fun op hop => ?_, fun q op hop => ?_⟩
    · have hold := hlower.mem_phis hop
      rw [hsettled.fed.entry] at hold
      cases hold
    · rw [hlower.sameEdges.predecessors]
      exact hsettled.fed.labels op (hlower.mem_phis hop)
  silent _ _ := hlower.silent hsettled
  uses _ _ _ _ _ _ := hlower.uses hphi hsettled hb
  inputs q op hop input hinput id hid visited hpath := by
    obtain ⟨c, hc, hdef⟩ := hsettled.inputs op (hlower.mem_phis hop) input
      hinput id hid visited ((hlower.path_iff ..).mp hpath)
    exact ⟨c, hc, hlower.definedIn hphi hdef⟩

end Lower

/-- Both kinds of steps keep locals written before they are read. -/
theorem stepKept_settled : StepKept Settled where
  mirrored := Settled.mirrored
  split hsettled hsplit hedge _ := hsettled.split hsplit hedge
  lower hsettled hlower hphi hb := Settled.lower hphi hlower hsettled hb

/-! ## Verified graphs -/

theorem destination_isSome_emptyPhi (var : GuestVariable) (preds : List Nat) :
    (emptyPhi var preds).destination.isSome := rfl

theorem length_labels_emptyPhi (var : GuestVariable) (preds : List Nat) :
    (emptyPhi var preds).labels.length = (emptyPhi var preds).sources.length := by
  simp [emptyPhi, Operation.phi]

section

variable (hprep : Prepared graph) (hresembles : Resembles graph result)
include hprep hresembles

/-- Phis keep their form when registers are renamed, and those that are placed have it. -/
theorem Resembles.phisFormed : result.PhisFormed := by
  intro b op hop
  obtain ⟨block', hblock', hmem, hphi⟩ := Graph.mem_phis_iff.mp hop
  obtain ⟨block, hblock⟩ := Graph.exists_block (hresembles.size ▸ Graph.lt_size hblock')
  obtain ⟨ops, hops, hshapes⟩ := hresembles.blocks hblock
  obtain rfl := Option.mem_unique hblock' hops
  rcases hshapes op hmem with ⟨old, hold, hshape⟩ | ⟨var, hshape⟩ | hcopy
  · obtain ⟨hdest, hlength⟩ := (hprep.checked hblock).phis old hold (hshape.isPhi ▸ hphi)
    exact ⟨hshape.destination ▸ hdest, by rw [hshape.labels, hshape.sources, hlength]⟩
  · refine ⟨hshape.destination ▸ destination_isSome_emptyPhi .., ?_⟩
    rw [hshape.labels, hshape.sources, length_labels_emptyPhi]
  · simp [Operation.isPhi, hcopy] at hphi

/-- A block that goes on somewhere ends in a branch, which writes nothing. -/
theorem Resembles.silent {block' : Block} (hblock' : result.blocks[b]? = some block')
    (hsucc : block'.successors ≠ []) (op : Operation) (hop : op ∈ block'.operations)
    (hterm : op.instruction.isTerminator) : op.destination = none := by
  obtain ⟨block, hblock⟩ := Graph.exists_block (hresembles.size ▸ Graph.lt_size hblock')
  obtain ⟨ops, hoperations, hshapes⟩ := hresembles.blocks hblock
  obtain rfl := Option.mem_unique hblock' hoperations
  have hcheck := hprep.checked hblock
  rcases hshapes op hop with ⟨old, hold, hshape⟩ | ⟨var, hshape⟩ | hcopy
  · have hinstr := hshape.instruction
    have hnone : ∀ count, old.instruction.shape? = some (false, count) → op.destination = none := by
      intro count hcount
      have hdest := (hcheck.shape old hold hcount).1
      rw [← hshape.destination] at hdest
      simpa using hdest
    rw [hinstr] at hterm
    cases hold' : old.instruction with
    | branch => exact hnone 0 (by rw [hold']; rfl)
    | branchIf cmp => exact hnone 2 (by rw [hold']; rfl)
    | ret =>
      -- A return would be last, and the block would go nowhere.
      obtain ⟨before, after, hops⟩ := append_of_mem hold
      obtain rfl := hcheck.terminator_last hops hterm
      have hlast : block.terminator? = some old := by
        rw [terminator?_append hops, if_pos hterm]
      exact absurd (hcheck.ret_ends hlast hold') hsucc
    | _ => simp [hold', Instruction.isTerminator] at hterm
  · rw [hshape.instruction] at hterm
    cases hterm
  · rw [hcopy] at hterm
    cases hterm

theorem settled_of_verify (hverify : verify result = .ok ()) (hfed : PhisFed result) :
    Settled result := by
  have hsame := hresembles.sameEdges
  have hdoms := hresembles.analyzed hprep.analyzed
  have hassign := singleAssignment_of_verify hdoms
    (fun b hb => hsame.reachable_iff.mpr (hprep.reachable b (hsame.size ▸ hb))) hverify
  refine ⟨hdoms.mirrored, ?_, hresembles.phisFormed hprep, hfed,
    fun _ _ => hresembles.silent hprep, ?_, ?_⟩
  · rw [hsame.predecessors]
    exact hprep.entry_free
  · intro b visited block before after op hpath hblock hops hphi opnd hopnd id hid
    refine (hassign.uses hblock hops hphi opnd hopnd id hid).imp_right ?_
    rintro ⟨c, hne, hdom, hdef⟩
    exact ⟨c, mem_tail_of_path hpath (hdom visited hpath) hne, hdef⟩
  · intro b op hop input hinput id hid visited hpath
    obtain ⟨block, hblock, hmem, hphi⟩ := Graph.mem_phis_iff.mp hop
    obtain ⟨c, hdom, hdef⟩ := hassign.inputs hblock op hmem hphi input hinput id hid
    exact ⟨c, hdom visited hpath, hdef⟩

end

/-- Verified graphs lose their phis without reading a local that was not written, provided that
each phi has exactly one input for each edge into its block and none stands in the entry. -/
theorem deconstruct_initialised {src pruned constructed : Graph}
    {sig : Validate.Signature} (hmirror : src.Mirrored) (hidx : src.Indexed)
    (hprepare : src.prepare sig = .ok pruned)
    (hanalyze : Dominance.analyze pruned = .ok graph)
    (hconstruct : construct graph = .ok constructed) (hverify : verify constructed = .ok ())
    (hfed : PhisFed constructed) :
    ∃ result splits, deconstruct constructed = .ok (result, splits) ∧
      (∀ op ∈ result.operations, op.isPhi = false) ∧ Initialised result := by
  have hprep := prepared_of_prepare hmirror hidx hprepare hanalyze
  rcases exists_construct hprep with ⟨_, _, _, hmixed, -⟩ | ⟨other, hother, hresembles, -⟩
  · rw [hconstruct] at hmixed
    cases hmixed
  obtain rfl := Except.ok.inj (hconstruct.symm.trans hother)
  have hready := settled_of_verify hprep hresembles hverify hfed
  obtain ⟨result, splits, hresult, hsettled, hfree⟩ :=
    exists_deconstruct_kept stepKept_settled hready.lowerable hready
  have hphis : ∀ {b : Nat} {block : Block}, result.blocks[b]? = some block →
      ∀ op ∈ block.operations, op.isPhi = false := by
    intro b block hblock op hop
    have hnone := hfree b
    rw [Graph.phis_eq hblock, List.filter_eq_nil_iff] at hnone
    simpa using hnone op hop
  refine ⟨result, splits, hresult, fun op hop => ?_, ?_⟩
  · obtain ⟨block, hblock, hmem⟩ := List.mem_flatMap.mp hop
    obtain ⟨b, hb⟩ := mem_blocks_iff.mp hblock
    exact hphis hb op hmem
  · intro b visited block before after op hpath hblock hops
    exact hsettled.uses hpath hblock hops (hphis hblock op (by simp [hops]))

/-- Two ways that join again. One value comes in from block 1, the other from the given one. -/
def joined (label : Nat) : Graph where
  blocks := #[
    { index := 0
      operations := [
        .copy (.localVar 0 .i64) (.constant 1 .i64),
        .copy (.localVar 1 .i64) (.constant 2 .i64),
        .branchIf .eq (.localVar 0 .i64) (.localVar 1 .i64)]
      successors := [1, 2] },
    { index := 1, operations := [.branch], successors := [3], predecessors := [0] },
    { index := 2, operations := [.branch], successors := [3], predecessors := [0] },
    { index := 3
      operations := [
        .phi (.localVar 2 .i64) [(1, .localVar 0 .i64), (label, .localVar 1 .i64)],
        .ret (.localVar 2 .i64)]
      predecessors := [1, 2] }]
  locals := ⟨.replicate 3 (some .i64)⟩

/-- The two ways with their dominators. -/
def analyzedJoined (label : Nat) : Graph where
  blocks := (joined label).blocks.mapIdx fun b block =>
    { block with
      immediateDominator := if b = 0 then none else some 0
      frontier := if b = 1 ∨ b = 2 then [3] else [] }
  locals := (joined label).locals

theorem joined_mirrored (label : Nat) : (joined label).Mirrored := by
  intro a b
  rcases a with _ | _ | _ | _ | a <;> rcases b with _ | _ | _ | _ | b <;>
    simp [joined, Graph.successors, Graph.predecessors]

theorem joined_indexed (label : Nat) : (joined label).Indexed := by
  intro b block hblock
  rcases b with _ | _ | _ | _ | b <;> simp [joined] at hblock <;> rw [← hblock]

theorem analyzedJoined_phisFed : PhisFed (analyzedJoined 2) := by
  refine ⟨rfl, fun b op hop => ?_⟩
  rcases b with _ | _ | _ | _ | b
  all_goals
    simp [Graph.phis, analyzedJoined, joined, Operation.copy, Operation.isPhi, Operation.branch,
      Operation.branchIf, Operation.ret, Operation.phi, Graph.predecessors] at hop ⊢
  rw [hop]

theorem deconstruct_initialised_joined : (joined 2).prepare ⟨[], some .i64⟩ = .ok (joined 2) ∧
      Dominance.analyze (joined 2) = .ok (analyzedJoined 2) ∧
      construct (analyzedJoined 2) = .ok (analyzedJoined 2) ∧
      verify (analyzedJoined 2) = .ok () ∧ PhisFed (analyzedJoined 2) ∧
      ∃ result splits, deconstruct (analyzedJoined 2) = .ok (result, splits) ∧
        (∀ op ∈ result.operations, op.isPhi = false) ∧ Initialised result := by
  have hprepare : (joined 2).prepare ⟨[], some .i64⟩ = .ok (joined 2) := by cbv
  have hanalyze : Dominance.analyze (joined 2) = .ok (analyzedJoined 2) := by cbv
  have hconstruct : construct (analyzedJoined 2) = .ok (analyzedJoined 2) := by decide +kernel
  have hverify : verify (analyzedJoined 2) = .ok () := by decide +kernel
  exact ⟨hprepare, hanalyze, hconstruct, hverify, analyzedJoined_phisFed,
    deconstruct_initialised (joined_mirrored 2) (joined_indexed 2) hprepare hanalyze hconstruct
      hverify analyzedJoined_phisFed⟩

/-- What is left of the graph in which both values come in from block 1. -/
def loweredJoined : Graph := (analyzedJoined 1).rewritten
  [[.copy (.localVar 0 .i64) (.constant 1 .i64), .copy (.localVar 1 .i64) (.constant 2 .i64),
      .branchIf .eq (.localVar 0 .i64) (.localVar 1 .i64)],
    [.copy (.localVar 3 .i64) (.localVar 0 .i64), .copy (.localVar 3 .i64) (.localVar 1 .i64),
      .branch], [.branch],
    [.copy (.localVar 2 .i64) (.localVar 3 .i64),
      .ret (.localVar 2 .i64)]] ⟨.replicate 4 (some .i64)⟩

/-- Verification counts the inputs of a phi and does not ask where they come from. Here both
come from block 1, and on the way through block 2 nothing writes the temporary. -/
theorem deconstruct_joined_uninitialised : (joined 1).prepare ⟨[], some .i64⟩ = .ok (joined 1) ∧
      Dominance.analyze (joined 1) = .ok (analyzedJoined 1) ∧
      construct (analyzedJoined 1) = .ok (analyzedJoined 1) ∧
      verify (analyzedJoined 1) = .ok () ∧
      deconstruct (analyzedJoined 1) = .ok (loweredJoined, 0) ∧ ¬Initialised loweredJoined := by
  refine ⟨by cbv, by cbv, by decide +kernel, by decide +kernel, by decide +kernel, fun hinit => ?_⟩
  have hpath : loweredJoined.Path 3 [3, 2, 0] :=
    .step (.step .entry (by decide : (2 : Nat) ∈ loweredJoined.successors 0))
      (by decide : (3 : Nat) ∈ loweredJoined.successors 2)
  rcases @hinit 3 [3, 2, 0] _ [] _ _ hpath rfl rfl (.localVar 3 .i64) (by simp [Operation.copy]) 3 rfl with
    hearlier | ⟨c, hc, block, hblock, hid⟩
  · cases hearlier
  · rcases List.mem_cons.mp hc with rfl | hc
    · cases hblock
      revert hid
      decide
    · obtain rfl := List.mem_singleton.mp hc
      cases hblock
      revert hid
      decide

end GraphJit.SSA
