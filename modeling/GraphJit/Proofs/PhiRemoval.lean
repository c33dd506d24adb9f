import GraphJit.Proofs.StrayCopies

/-! # Invariants of removing phis

Phis are removed by steps of two kinds: an edge gets a block in its middle, or one phi is
turned into copies. What both kinds of steps keep is kept by the whole pass, and in the
end there is no phi left.
-/

namespace GraphJit.SSA

open List GraphJit.Graph

variable {graph mid result : Graph} {phi : Operation} {dest : Operand} {temp b pos : Nat}

/-! ## Operations of a lowered block -/

variable {block : Block} {op : Operation} {q src : Nat} {copies : List Operation}
  {rest : List (Operation × Nat)}

theorem mem_withCopies :
    op ∈ (withCopies copies block).operations ↔ op ∈ block.operations ∨ op ∈ copies := by
  have hsplit : op ∈ block.operations ↔ op ∈ block.operations.take block.insertionPoint ∨
      op ∈ block.operations.drop block.insertionPoint := by
    rw [← mem_append, take_append_drop]
  simp only [withCopies, mem_append, hsplit]
  tauto

/-- A lowered block has no operations but the old ones and copies through the temporary. -/
theorem mem_loweredBlock (hop : op ∈ (loweredBlock temp phi dest b pos q block).operations) :
    op ∈ block.operations ∨ op = .copy dest (.localVar temp dest.type) ∨
      ∃ src ∈ phi.sources, op = .copy (.localVar temp dest.type) src := by
  rcases mem_withCopies.mp hop with hold | hnew
  · by_cases hq : q = b
    · simp only [if_pos hq] at hold
      rcases mem_or_eq_of_mem_set hold with hold | rfl
      · exact .inl hold
      · exact .inr (.inl rfl)
    · simp only [if_neg hq] at hold
      exact .inl hold
  · obtain ⟨input, hinput, rfl⟩ := mem_map.mp hnew
    have hmem : (input.1, input.2) ∈ phi.inputs := mem_of_mem_filter hinput
    exact .inr (.inr ⟨input.2, (of_mem_zip hmem).2, rfl⟩)

/-! ## The phis that are left -/

/-- A list of phis with their positions that holds all those of the block that write something. -/
structure PhisAt (block : Block) (phis : List (Operation × Nat)) : Prop where
  nodup : (phis.map Prod.snd).Nodup
  mem_iff : ∀ {op : Operation} {pos : Nat}, op.destination.isSome →
    ((op, pos) ∈ phis ↔ block.operations[pos]? = some op ∧ op.isPhi)

theorem phisAt_zipIdx (block : Block) : PhisAt block (phisOf block) := by
  constructor
  · have hsub : ((phisOf block).map Prod.snd).Sublist (block.operations.zipIdx.map Prod.snd) := filter_sublist.map _
    refine hsub.nodup ?_
    rw [zipIdx_map_snd]
    exact nodup_range'
  · intro op pos _
    simp [phisOf, mem_filter, mem_zipIdx_iff_getElem?]

/-- A phi stands before the place where copies go. -/
theorem lt_insertionPoint (hop : block.operations[pos]? = some op) (hphi : op.isPhi) :
    pos < block.insertionPoint := by
  have hlt := (List.getElem?_eq_some_iff.mp hop).1
  rcases insertionPoint_cases block with ⟨body, last, hops, hlast, -, hpoint⟩ | ⟨-, hpoint⟩
  · rw [hops, length_append, length_singleton] at hlt
    rw [hpoint]
    by_contra hge
    obtain rfl : pos = body.length := by omega
    rw [hops, getElem?_concat_length] at hop
    cases hop
    rw [not_terminator_of_isPhi hphi] at hlast
    simp at hlast
  · omega

theorem withCopies_getElem?_phi
    (hcopies : ∀ op ∈ copies, op.instruction.isTerminator = false ∧ op.isPhi = false)
    (hphi : op.isPhi) : (withCopies copies block).operations[pos]? = some op ↔
      block.operations[pos]? = some op := by
  have hle : block.insertionPoint ≤ block.operations.length := by
    unfold Block.insertionPoint
    split <;> omega
  have hlength : (block.operations.take block.insertionPoint).length = block.insertionPoint := by
    rw [length_take, Nat.min_eq_left hle]
  have hbefore : pos < block.insertionPoint →
      (withCopies copies block).operations[pos]? = block.operations[pos]? := by
    intro hlt
    simp only [withCopies]
    rw [append_assoc, getElem?_append_left (by omega), getElem?_take, if_pos hlt]
  constructor
  · intro hop
    have hlt := lt_insertionPoint hop hphi
    rw [withCopies_insertionPoint fun op hop => (hcopies op hop).1] at hlt
    by_cases hpoint : pos < block.insertionPoint
    · rwa [hbefore hpoint] at hop
    · simp only [withCopies] at hop
      rw [getElem?_append_left (by rw [length_append]; omega),
        getElem?_append_right (by omega)] at hop
      rw [(hcopies op (mem_of_getElem? hop)).2] at hphi
      simp at hphi
  · intro hop
    rwa [hbefore (lt_insertionPoint hop hphi)]

theorem PhisAt.loweredBlock (hphis : PhisAt block ((phi, pos) :: rest)) :
    PhisAt (loweredBlock temp phi dest b pos b block) rest := by
  obtain ⟨hnew, hnodup⟩ := nodup_cons.mp (map_cons ▸ hphis.nodup)
  refine ⟨hnodup, ?_⟩
  intro op p hdest
  cases hop : op.isPhi with
  | false =>
    have hrest : (op, p) ∉ rest := fun h => by
      simpa [hop] using ((hphis.mem_iff hdest).mp (.tail _ h)).2
    simp [hrest]
  | true =>
    simp only [SSA.loweredBlock, withCopies_getElem?_phi copiesFor_not_phi hop, if_true, and_true]
    rw [getElem?_set]
    by_cases hp : pos = p
    · subst hp
      have hne : Operation.copy dest (.localVar temp dest.type) ≠ op := by
        rintro rfl
        simp [Operation.copy, Operation.isPhi] at hop
      have hrest : (op, pos) ∉ rest := fun h => hnew (mem_map.mpr ⟨_, h, rfl⟩)
      simp only [hrest, if_true, false_iff]
      split <;> simp [hne]
    · have hiff : (op, p) ∈ (phi, pos) :: rest ↔
          block.operations[p]? = some op ∧ op.isPhi := hphis.mem_iff hdest
      have hcons : (op, p) ∈ (phi, pos) :: rest ↔ (op, p) ∈ rest := by
        simp [Ne.symm hp]
      rw [if_neg hp, ← hcons, hiff, hop]
      simp

theorem PhisAt.tail (hphis : PhisAt block ((phi, pos) :: rest))
    (hnone : phi.destination = none) : PhisAt block rest := by
  refine ⟨(nodup_cons.mp (map_cons ▸ hphis.nodup)).2, fun {op p} hdest => ?_⟩
  rw [← hphis.mem_iff hdest, mem_cons, or_iff_right]
  rintro ⟨⟩
  simp [hnone] at hdest

namespace LowersThrough

variable (hlower : LowersThrough temp graph phi dest b pos result)
include hlower

theorem count : result.locals.count = graph.locals.count + 1 := by
  simp [hlower.locals, LocalTable.fresh, LocalTable.count]

variable {q : Nat}

theorem cases (hblock : result.blocks[q]? = some block) :
    ∃ old, graph.blocks[q]? = some old ∧ block = loweredBlock temp phi dest b pos q old := by
  obtain ⟨old, hold⟩ := exists_block (hlower.size ▸ Graph.lt_size hblock)
  exact ⟨old, hold, Option.mem_unique hblock (hlower.kept hold)⟩

theorem mem_phis (hop : op ∈ result.phis q) : op ∈ graph.phis q := by
  obtain ⟨block', hblock', hmem, hisPhi⟩ := Graph.mem_phis_iff.mp hop
  obtain ⟨block, hblock, rfl⟩ := hlower.cases hblock'
  refine Graph.mem_phis_iff.mpr ⟨block, hblock, ?_, hisPhi⟩
  rcases mem_loweredBlock hmem with hold | rfl | ⟨src, -, rfl⟩
  · exact hold
  · cases hisPhi
  · cases hisPhi

theorem path_iff (q : Nat) (visited : List Nat) : result.Path q visited ↔ graph.Path q visited := by
  rw [path_congr hlower.sameEdges.edge_iff]

end LowersThrough

/-! ## Steps -/

/-- A property that every step keeps. An edge is split only if there are phis to feed. -/
structure StepKept (keeps : Graph → Prop) : Prop where
  mirrored : ∀ {graph}, keeps graph → graph.Mirrored
  split : ∀ {graph result src target}, keeps graph → SplitsInto graph src target result →
    target ∈ graph.successors src → graph.phis target ≠ [] → keeps result
  lower : ∀ {graph result phi dest b pos}, keeps graph →
    LowersThrough (graph.locals.count % twoPow 32) graph phi dest b pos result →
    PhiAt graph phi dest b pos → b < graph.size → keeps result

/-- Graphs whose phis name existing blocks. -/
structure Lowerable (graph : Graph) : Prop where
  mirrored : graph.Mirrored
  formed : graph.PhisFormed
  labels : ∀ b, ∀ op ∈ graph.phis b, ∀ label ∈ op.labels, label < graph.size

/-- Every phi was there before, perhaps with other labels. -/
structure Inherits (graph result : Graph) : Prop where
  size : graph.size ≤ result.size
  phis : ∀ q, ∀ new ∈ result.phis q, ∃ old ∈ graph.phis q, new.destination = old.destination

namespace Inherits

theorem refl (graph : Graph) : Inherits graph graph :=
  ⟨Nat.le_refl _, fun _ op hop => ⟨op, hop, rfl⟩⟩

theorem trans (hfirst : Inherits graph mid) (hsecond : Inherits mid result) :
    Inherits graph result := by
  refine ⟨Nat.le_trans hfirst.size hsecond.size, fun q new hnew => ?_⟩
  obtain ⟨op, hop, hdest⟩ := hsecond.phis q new hnew
  obtain ⟨old, hold, hdest'⟩ := hfirst.phis q op hop
  exact ⟨old, hold, hdest.trans hdest'⟩

end Inherits

theorem SplitsInto.inherits (hsplit : SplitsInto graph src b result) (hb : b < graph.size) :
    Inherits graph result := by
  refine ⟨hsplit.size ▸ Nat.le_succ _, fun q new hnew => ?_⟩
  by_cases hq : q = b
  · subst hq
    rw [hsplit.phis_target hb] at hnew
    obtain ⟨old, hold, rfl⟩ := mem_map.mp hnew
    refine ⟨old, hold, ?_⟩
    rw [relabel]
    split <;> rfl
  · rw [hsplit.phis_of_ne hq] at hnew
    exact ⟨new, hnew, rfl⟩

theorem SplitsInto.phis_ne_nil (hsplit : SplitsInto graph src b result) (hb : b < graph.size)
    (hphis : graph.phis b ≠ []) : result.phis b ≠ [] := by
  rw [hsplit.phis_target hb]
  simpa using hphis

theorem LowersThrough.inherits (hlower : LowersThrough temp graph phi dest b pos result) :
    Inherits graph result :=
  ⟨Nat.le_of_eq hlower.size.symm, fun _ new hnew => ⟨new, hlower.mem_phis hnew, rfl⟩⟩

theorem lt_size_of_phis (hphis : graph.phis b ≠ []) : b < graph.size :=
  Nat.lt_of_not_le fun hb => hphis (phis_of_size_le hb)

/-! ## Runs of steps -/

section Walk

variable {keeps : Graph → Prop} (hkept : StepKept keeps)
include hkept

variable {splits : Nat} {before : Graph}

/-- Splitting the critical edges into a block. What remains to be looked at are edges that are
still there. -/
theorem keeps_splitCritical {remaining : List Nat} (hgraph : keeps graph)
    (hphis : graph.phis b ≠ []) (hleft : ∀ p, remaining.count p ≤ (graph.predecessors b).count p)
    (hrun : splitCritical b graph remaining = .ok (result, splits)) :
    keeps result ∧ Inherits graph result := by
  induction remaining generalizing graph result splits with
  | nil =>
    cases hrun
    exact ⟨hgraph, .refl _⟩
  | cons p rest ih =>
    have hmem : p ∈ graph.predecessors b := by
      have hcount := hleft p
      rw [count_cons_self] at hcount
      exact count_pos_iff.mp (by omega)
    have hedge := (hkept.mirrored hgraph).mem_iff.mpr hmem
    rw [splitCritical] at hrun
    obtain ⟨block, -, hrun⟩ := of_bind hrun
    split at hrun
    next =>
      obtain ⟨mid, hmiddle, hrun⟩ := of_bind hrun
      obtain ⟨⟨last, count⟩, hlast, hanswer⟩ := of_bind hrun
      cases hanswer
      have hb := target_lt_size hmem
      obtain ⟨other, hother, hsplit⟩ := exists_splitEdge (source_lt_size hedge) hb
      obtain rfl := Except.ok.inj (hmiddle.symm.trans hother)
      -- the split replaces one predecessor, the others in the list still stand for edges
      have hrest : ∀ q, rest.count q ≤ (mid.predecessors b).count q := by
        intro q
        have hcount := hleft q
        have hreplace := count_replace graph.size hmem q
        rw [hsplit.predecessors, if_neg (Nat.ne_of_lt hb), if_pos rfl]
        rw [count_cons] at hcount
        simp only [beq_iff_eq, eq_comm (a := p)] at hcount
        split at hreplace <;> split at hreplace <;> simp_all <;> omega
      obtain ⟨hkeeps, hinh⟩ := ih (hkept.split hgraph hsplit hedge hphis)
        (hsplit.phis_ne_nil hb hphis) hrest hlast
      exact ⟨hkeeps, (hsplit.inherits hb).trans hinh⟩
    next =>
      exact ih hgraph hphis (fun q => Nat.le_trans (count_le_count_cons ..) (hleft q)) hrun

/-- The phis of a block are turned into copies one after the other. -/
theorem keeps_lowerPhis {phis : List (Operation × Nat)} (hgraph : keeps graph) (hb : b < graph.size)
    (hphis : ∀ {block : Block}, graph.blocks[b]? = some block → PhisAt block phis)
    (hrun : lowerPhis b phis graph = .ok result) :
    keeps result ∧ Inherits graph result ∧ ∀ op ∈ result.phis b, op.destination = none := by
  obtain ⟨home, hhome⟩ := exists_block hb
  induction phis generalizing graph home with
  | nil =>
    cases hrun
    refine ⟨hgraph, .refl _, fun op hop => Option.not_isSome_iff_eq_none.mp fun hdest => ?_⟩
    rw [phis_eq hhome, mem_filter] at hop
    obtain ⟨pos, hpos⟩ := mem_iff_getElem?.mp hop.1
    simpa using ((hphis hhome).mem_iff hdest).mpr ⟨hpos, hop.2⟩
  | cons head rest ih =>
    obtain ⟨phi, pos⟩ := head
    rw [lowerPhis, foldlM_cons] at hrun
    obtain ⟨mid, hmiddle, hrest⟩ := of_bind hrun
    change lowerPhi b pos graph phi = .ok mid at hmiddle
    cases hdest : phi.destination with
    | none =>
      simp only [lowerPhi, hdest] at hmiddle
      cases hmiddle
      exact ih hgraph hb (fun hblock => (hphis hblock).tail hdest) hrest home hhome
    | some dest =>
      have hsome : phi.destination.isSome := by simp [hdest]
      obtain ⟨hplace, hphi⟩ := ((hphis hhome).mem_iff hsome).mp mem_cons_self
      have hat : PhiAt graph phi dest b pos := by
        refine ⟨hphi, hdest, fun hblock => ?_⟩
        obtain rfl := Option.mem_unique hhome hblock
        exact hplace
      have hlabels : ∀ input ∈ phi.inputs, input.1 < graph.size := by
        rcases lowerPhi_cases pos hb hsome with ⟨-, -, -, hgood⟩ | ⟨⟨cause, hfail⟩, -⟩
        · exact fun input hinput => Nat.lt_of_not_le fun hle => hgood ⟨input, hinput, hle⟩
        · rw [hmiddle] at hfail
          cases hfail
      obtain ⟨other, hother, hlower⟩ := exists_lowersThrough pos hb hdest hlabels
      obtain rfl := Except.ok.inj (hmiddle.symm.trans hother)
      -- the copy takes the place of the phi, so the other phis keep their positions
      have hothers : ∀ {block : Block}, mid.blocks[b]? = some block → PhisAt block rest := by
        intro block hblock
        obtain ⟨old, hold, rfl⟩ := hlower.cases hblock
        exact (hphis hold).loweredBlock
      obtain ⟨hkeeps, hinh, hnone⟩ := ih (hkept.lower hgraph hlower hat hb)
        (hlower.size ▸ hb) hothers hrest _ (hlower.kept hhome)
      exact ⟨hkeeps, hlower.inherits.trans hinh, hnone⟩

theorem keeps_lowerBlock (hgraph : keeps graph) (hb : b < graph.size)
    (hrun : lowerBlock graph b = .ok (result, splits)) :
    keeps result ∧ Inherits graph result ∧ ∀ op ∈ result.phis b, op.destination = none := by
  obtain ⟨block, hblock⟩ := exists_block hb
  cases hphi : block.hasPhi with
  | false =>
    rw [lowerBlock_of_no_phi hblock hphi] at hrun
    cases hrun
    have hnone : graph.phis b = [] := by
      simpa [hphi] using (hasPhi_iff hblock).symm
    exact ⟨hgraph, .refl _, by simp [hnone]⟩
  | true =>
    have hphis := (hasPhi_iff hblock).mp hphi
    obtain ⟨⟨mid, count⟩, hmiddle, hkeeps, hinh⟩ : ∃ answer, splitBefore b graph block = .ok answer ∧
        keeps answer.1 ∧ Inherits graph answer.1 := by
      unfold splitBefore
      by_cases hmany : 1 < block.predecessors.length
      · rw [if_pos hmany]
        rw [← Graph.predecessors_eq hblock]
        obtain ⟨mid, count, hmiddle, -⟩ := splitsEdges_splitCritical hb
          fun p hp => (hkept.mirrored hgraph).lt_size_of_predecessor hp
        exact ⟨_, hmiddle, keeps_splitCritical hkept hgraph hphis (fun p => Nat.le_refl _) hmiddle⟩
      · exact ⟨_, if_neg hmany, hgraph, .refl _⟩
    -- splitting edges has changed the labels of the block, so it is looked up again
    have hb' := Nat.lt_of_lt_of_le hb hinh.size
    obtain ⟨home, hhome⟩ := exists_block hb'
    have hat : ∀ {other : Block}, mid.blocks[b]? = some other → PhisAt other (phisOf home) := by
      intro other hother
      obtain rfl : home = other := Option.mem_unique hhome hother
      exact phisAt_zipIdx home
    rw [lowerBlock_eq hblock hphi hmiddle hhome] at hrun
    obtain ⟨last, hlast, hanswer⟩ := map_eq_ok.mp hrun
    cases hanswer
    obtain ⟨hlasts, hmore, hnone⟩ := keeps_lowerPhis hkept hkeeps hb' hat hlast
    exact ⟨hlasts, hinh.trans hmore, hnone⟩

theorem keeps_lowerBlocks {n : Nat} (hbefore : keeps before) (hn : n ≤ before.size)
    (hrun : lowerBlocks before n = .ok (result, splits)) : keeps result ∧ Inherits before result ∧
      ∀ q < n, ∀ op ∈ result.phis q, op.destination = none := by
  induction n generalizing result splits with
  | zero =>
    cases hrun
    exact ⟨hbefore, .refl _, fun q hq => absurd hq (Nat.not_lt_zero q)⟩
  | succ n ih =>
    rw [lowerBlocks_succ] at hrun
    obtain ⟨⟨mid, total⟩, hmiddle, hrun⟩ := of_bind hrun
    obtain ⟨⟨last, count⟩, hlast, hanswer⟩ := of_bind hrun
    cases hanswer
    obtain ⟨hkeeps, hinh, hdone⟩ := ih (by omega) hmiddle
    obtain ⟨hlasts, hmore, hnone⟩ :=
      keeps_lowerBlock hkept hkeeps (Nat.lt_of_lt_of_le hn hinh.size) hlast
    refine ⟨hlasts, hinh.trans hmore, fun q hq op hop => ?_⟩
    rcases Nat.lt_succ_iff_lt_or_eq.mp hq with hlt | rfl
    · obtain ⟨old, hold, hdest⟩ := hmore.phis q op hop
      exact hdest.trans (hdone q hlt old hold)
    · exact hnone op hop

/-- The pass goes through where all labels name blocks, keeps what its steps keep, and leaves no
phi. -/
theorem exists_deconstruct_kept (hlowerable : Lowerable before) (hbefore : keeps before) :
    ∃ result splits, deconstruct before = .ok (result, splits) ∧ keeps result ∧
      ∀ q, result.phis q = [] := by
  rcases deconstruct_cases hlowerable.mirrored hlowerable.formed with
    ⟨⟨result, splits⟩, hresult, -⟩ | ⟨-, b, op, hop, label, hlabel, hstray⟩
  · obtain ⟨hkeeps, hinh, hnone⟩ := keeps_lowerBlocks hkept hbefore (Nat.le_refl _) hresult
    refine ⟨result, splits, hresult, hkeeps, fun q => eq_nil_iff_forall_not_mem.mpr ?_⟩
    intro op hop
    obtain ⟨old, hold, hdest⟩ := hinh.phis q op hop
    have hsome := (hlowerable.formed q old hold).1
    rw [← hdest, hnone q (lt_size_of_phis (ne_nil_of_mem hold)) op hop] at hsome
    cases hsome
  · exact absurd (hlowerable.labels b op hop label hlabel) (Nat.not_lt.mpr
      (Nat.le_trans (before.size_le_sizeAfterSplits _) hstray))

end Walk

end GraphJit.SSA
