import GraphJit.Proofs.Links
import GraphJit.Proofs.Simulation
import GraphJit.SSA.Deconstruct
import Mathlib.Data.List.Perm.Basic

/-! # Splitting an edge

A block put on an edge only branches on. It takes over one phi input of the
target, and all inputs with one label carry one value, so it does not matter
which. Runs go through the new block and are otherwise the same.
-/

namespace GraphJit.SSA

open List GraphJit.Graph

/-- The inputs of a phi stand for the edges into its block. -/
structure PhiMatches (preds : List Nat) (op : Operation) : Prop where
  destination : op.destination.isSome
  length : op.labels.length = op.sources.length
  labels : op.labels.Perm preds
  coherent : ∀ {label first second}, (label, first) ∈ op.inputs → (label, second) ∈ op.inputs →
    first = second

/-- Graphs whose phis can be turned into copies. -/
structure Eliminable (graph : Graph) : Prop where
  mirrored : graph.Mirrored
  phis : ∀ {b : Nat} {block : Block} {op : Operation}, graph.blocks[b]? = some block →
    op ∈ block.operations → op.isPhi → PhiMatches block.predecessors op
  terminators : ∀ {b : Nat} {block : Block} {op : Operation}, graph.blocks[b]? = some block →
    op ∈ block.operations.dropLast → op.instruction.isTerminator = false
  locals : ∀ {b : Nat} {block : Block} {op : Operation} {opnd : Operand} {id : Nat},
    graph.blocks[b]? = some block → op ∈ block.operations → opnd ∈ op.operands →
    opnd.localId? = some id → id < graph.locals.count

variable {src target mid : Nat} {op : Operation} {graph : Graph}

/-- There is an input for every edge into the block. -/
theorem PhiMatches.exists_input {preds : List Nat} {label : Nat}
    (hmatch : PhiMatches preds op) (hlabel : label ∈ preds) :
    ∃ src, op.inputs.lookup label = some src := by
  rw [← Option.isSome_iff_exists, lookup_isSome_iff]
  obtain ⟨k, hk, rfl⟩ := getElem_of_mem (hmatch.labels.mem_iff.mpr hlabel)
  have hk' : k < op.sources.length := hmatch.length ▸ hk
  refine ⟨(op.labels[k], op.sources[k]), ?_, by simp⟩
  refine mem_iff_getElem.mpr ⟨k, ?_, by simp [Operation.inputs]⟩
  simp only [Operation.inputs, length_zip]
  omega

/-! ## Replacing one entry of a list -/

section Replace

variable {old : Nat}

variable {labels entries : List Nat} {sources : List Operand} {label : Nat} {src : Operand}

theorem count_replace (new : Nat) (hold : old ∈ entries) (x : Nat) :
    (entries.replace old new).count x + (if x = old then 1 else 0) =
      entries.count x + (if x = new then 1 else 0) := by
  have hpos : x = old → 0 < entries.count x := fun h => count_pos_iff.mpr (h ▸ hold)
  simp only [List.count_replace, contains_iff_mem.mpr hold, if_true, beq_iff_eq, eq_comm (b := x)]
  split <;> split <;> omega

/-- An entry of the new list is an entry of the old one, or the replacement. -/
theorem getElem?_replace_cases (entries : List Nat) (old new slot : Nat) :
    (entries.replace old new)[slot]? = entries[slot]? ∨
      entries[slot]? = some old ∧ (entries.replace old new)[slot]? = some new := by
  rw [getElem?_replace]
  split
  next hold =>
    have hold := beq_iff_eq.mp hold
    split
    next => exact .inl hold.symm
    next => exact .inr ⟨hold, rfl⟩
  next => exact .inl rfl

variable {new : Nat}

theorem lookup_replace_new (hlength : labels.length = sources.length) (hold : old ∈ labels)
    (hnew : new ∉ labels) :
    ((labels.replace old new).zip sources).lookup new = (labels.zip sources).lookup old := by
  induction labels generalizing sources with
  | nil => simp at hold
  | cons label rest ih =>
    obtain ⟨hne, hrest⟩ := not_or.mp (fun h => hnew (mem_cons.mpr h))
    cases sources with
    | nil => simp at hlength
    | cons src sources =>
      rw [replace_cons]
      by_cases hlabel : label = old
      · subst hlabel
        simp
      · have hold' : old ∈ rest := (mem_cons.mp hold).resolve_left (Ne.symm hlabel)
        simp only [beq_false_of_ne (Ne.symm hlabel), zip_cons_cons, List.lookup_cons,
          beq_false_of_ne hne]
        exact ih (by simpa using hlength) hold' hrest

theorem lookup_replace_other (hold : label ≠ old) (hnew : label ≠ new) :
    ((labels.replace old new).zip sources).lookup label = (labels.zip sources).lookup label := by
  induction labels generalizing sources with
  | nil => rfl
  | cons first rest ih =>
    cases sources with
    | nil => simp
    | cons src sources =>
      rw [replace_cons]
      by_cases hfirst : first = old
      · subst hfirst
        simp [List.lookup_cons, beq_false_of_ne hold, beq_false_of_ne hnew]
      · simp only [beq_false_of_ne (Ne.symm hfirst), zip_cons_cons, List.lookup_cons, ih]

theorem mem_zip_replace (hmem : (label, src) ∈ (labels.replace old new).zip sources) :
    (label, src) ∈ labels.zip sources ∨ label = new ∧ (old, src) ∈ labels.zip sources := by
  simp only [mem_iff_getElem?, getElem?_zip_eq_some] at hmem ⊢
  obtain ⟨k, hlabel, hsrc⟩ := hmem
  rcases getElem?_replace_cases labels old new k with hsame | ⟨hold, hnew⟩
  · exact .inl ⟨k, hsame ▸ hlabel, hsrc⟩
  · rw [hnew] at hlabel
    exact .inr ⟨(Option.some.inj hlabel).symm, k, hold, hsrc⟩

theorem mem_of_lookup {inputs : List (Nat × Operand)}
    (hlookup : inputs.lookup label = some src) : (label, src) ∈ inputs := by
  obtain ⟨before, after, rfl, -⟩ := lookup_eq_some_iff.mp hlookup
  simp

end Replace

/-! ## The graph with a block on an edge -/

/-- A phi takes an input from the middle of an edge instead of its source. -/
def relabel (src mid : Nat) (op : Operation) : Operation :=
  if op.isPhi then { op with labels := op.labels.replace src mid } else op

/-- What becomes of block `b` when the edge from `source` to `target` gets a middle. -/
def reroute (src target mid b : Nat) (block : Block) : Block :=
  { block with
    successors := if b = src then block.successors.replace target mid else block.successors
    predecessors :=
      if b = target then block.predecessors.replace src mid else block.predecessors
    operations :=
      if b = target then block.operations.map (relabel src mid) else block.operations }

/-- The block in the middle of an edge. -/
def edgeBlock (src target mid : Nat) : Block where
  index := mid
  operations := [.branch]
  successors := [target]
  predecessors := [src]

structure SplitsInto (graph : Graph) (src target : Nat) (result : Graph) : Prop where
  locals : result.locals = graph.locals
  size : result.size = graph.size + 1
  kept : ∀ {b : Nat} {block : Block}, graph.blocks[b]? = some block →
    result.blocks[b]? = some (reroute src target graph.size b block)
  edge : result.blocks[graph.size]? = some (edgeBlock src target graph.size)

theorem exists_splitEdge (hsrc : src < graph.size) (htarget : target < graph.size) :
    ∃ result, graph.splitEdge src target = .ok result ∧ SplitsInto graph src target result := by
  have hsize : graph.addBlock.size = graph.size + 1 := Array.size_push _
  dsimp only [Graph.splitEdge]
  rw [modify_eq_ok _ (by omega)]
  simp only [bind, Except.bind]
  rw [modify_eq_ok _ (by simp only [Graph.size, Array.size_modify] at *; omega)]
  simp only
  rw [modify_eq_ok _ (by simp only [Graph.size, Array.size_modify] at *; omega)]
  refine ⟨_, rfl, rfl, by simp [Graph.addBlock, Graph.size], ?_, ?_⟩
  · intro b block hblock
    have hb := Graph.lt_size hblock
    have hne : graph.size ≠ b := by omega
    have hpush : graph.addBlock.blocks[b]? = some block := by
      rw [Graph.addBlock, Array.getElem?_push_lt hb, ← hblock, Array.getElem?_eq_getElem hb]
    simp only [Array.getElem?_modify, hne, if_false, hpush]
    by_cases hs : src = b <;> by_cases ht : target = b <;>
      simp [hs, ht, reroute, relabel, eq_comm (a := b)]
  · have hs : src ≠ graph.size := by omega
    have ht : target ≠ graph.size := by omega
    have hpush : graph.addBlock.blocks[graph.size]? = some { index := graph.size } :=
      Array.getElem?_push_size
    simp [Array.getElem?_modify, hs, ht, hpush, edgeBlock]

namespace SplitsInto

variable {graph result : Graph} {src target : Nat}

variable (hsplit : SplitsInto graph src target result)
include hsplit

theorem blocks (b : Nat) : result.blocks[b]? =
      if b = graph.size then some (edgeBlock src target graph.size)
      else graph.blocks[b]?.map (reroute src target graph.size b) := by
  split
  next hb => rw [hb, hsplit.edge]
  next hb =>
    cases hblock : graph.blocks[b]? with
    | some block => exact hsplit.kept hblock
    | none =>
      have hsize := hsplit.size
      simp only [Graph.size, Array.getElem?_eq_none_iff, Option.map_none] at *
      omega

theorem cases {b : Nat} {block : Block} (hblock : result.blocks[b]? = some block) :
    (∃ old, graph.blocks[b]? = some old ∧ block = reroute src target graph.size b old) ∨
      b = graph.size ∧ block = edgeBlock src target graph.size := by
  rw [hsplit.blocks] at hblock
  split at hblock
  next hb => exact .inr ⟨hb, (Option.some.inj hblock).symm⟩
  next =>
    obtain ⟨old, hold, rfl⟩ := Option.map_eq_some_iff.mp hblock
    exact .inl ⟨old, hold, rfl⟩

theorem successors (a : Nat) : result.successors a = if a = graph.size then [target]
      else if a = src then (graph.successors a).replace target graph.size
      else graph.successors a := by
  by_cases ha : a = graph.size
  · simp [Graph.successors, hsplit.blocks, ha, edgeBlock]
  · cases hblock : graph.blocks[a]? <;> simp [Graph.successors, hsplit.blocks, ha, hblock, reroute]

theorem predecessors (b : Nat) : result.predecessors b = if b = graph.size then [src]
      else if b = target then (graph.predecessors b).replace src graph.size
      else graph.predecessors b := by
  by_cases hb : b = graph.size
  · simp [Graph.predecessors, hsplit.blocks, hb, edgeBlock]
  · cases hblock : graph.blocks[b]? <;>
      simp [Graph.predecessors, hsplit.blocks, hb, hblock, reroute]

omit hsplit in
/-- Neighbours are counted as before, but for the two ends of the edge and its middle. -/
theorem count_neighbours {lists : Nat → List Nat} {near far mid : Nat} (hfar : far ∈ lists near)
    (hnone : lists mid = []) (hne : near ≠ mid) (a b : Nat) :
    (if a = mid then [far] else if a = near then (lists a).replace far mid else lists a).count b +
        (if a = near ∧ b = far then 1 else 0) =
      (lists a).count b + (if a = near ∧ b = mid then 1 else 0) +
        (if a = mid ∧ b = far then 1 else 0) := by
  by_cases ha : a = mid
  · subst ha
    simp [hnone, hne.symm, count_singleton, eq_comm (a := far)]
  · by_cases hnear : a = near
    · subst hnear
      have hcount := count_replace mid hfar b
      simpa [ha] using hcount
    · simp [ha, hnear]

theorem mirrored (hmirror : graph.Mirrored) (hedge : target ∈ graph.successors src) :
    result.Mirrored := by
  have hback := hmirror.mem_iff.mp hedge
  have hnone : graph.blocks[graph.size]? = none := Array.getElem?_eq_none (Nat.le_refl _)
  intro a b
  have hsucc := count_neighbours hedge (by simp [Graph.successors, hnone])
    (Nat.ne_of_lt (source_lt_size hedge)) a b
  have hpred := count_neighbours hback (by simp [Graph.predecessors, hnone])
    (Nat.ne_of_lt (target_lt_size hback)) b a
  have hab := hmirror a b
  rw [hsplit.successors, hsplit.predecessors]
  simp only [and_comm] at hsucc hpred
  omega

end SplitsInto

@[simp] theorem relabel_instruction (src mid : Nat) (op : Operation) :
    (relabel src mid op).instruction = op.instruction := by
  unfold relabel
  split <;> rfl

@[simp] theorem relabel_isPhi (src mid : Nat) (op : Operation) :
    (relabel src mid op).isPhi = op.isPhi := by
  simp [Operation.isPhi]

/-- Rerouting changes nothing about operations but labels. -/
theorem exists_labels (src target mid b : Nat) (block : Block) :
    ∃ labels : Operation → List Nat, (reroute src target mid b block).operations =
      block.operations.map fun op => { op with labels := labels op } := by
  by_cases hb : b = target
  · refine ⟨fun op => (relabel src mid op).labels, ?_⟩
    simp only [reroute, if_pos hb]
    refine map_congr_left fun op _ => ?_
    unfold relabel
    split <;> rfl
  · exact ⟨Operation.labels, by simp [reroute, hb]⟩

theorem relabel_of_not_phi (hphi : op.isPhi = false) : relabel src mid op = op := by
  simp [relabel, hphi]

theorem PhiMatches.relabel {preds : List Nat} (hmatch : PhiMatches preds op)
    (hphi : op.isPhi) (hsrc : src ∈ preds) (hmiddle : mid ∉ preds) :
    PhiMatches (preds.replace src mid) (relabel src mid op) := by
  have hop : SSA.relabel src mid op =
      { op with labels := op.labels.replace src mid } := if_pos hphi
  have hlabel : src ∈ op.labels := hmatch.labels.mem_iff.mpr hsrc
  have hnew : mid ∉ op.labels := fun h => hmiddle (hmatch.labels.mem_iff.mp h)
  rw [hop]
  refine ⟨hmatch.destination, ?_, ?_, ?_⟩
  · simpa using hmatch.length
  · refine perm_iff_count.mpr fun x => ?_
    have hleft := count_replace mid hlabel x
    have hright := count_replace mid hsrc x
    have := perm_iff_count.mp hmatch.labels x
    dsimp only
    omega
  · intro label first second hfirst hsecond
    have hnone : ∀ {value}, (mid, value) ∉ op.labels.zip op.sources :=
      fun h => hnew (of_mem_zip h).1
    rcases mem_zip_replace hfirst with hfirst | ⟨rfl, hfirst⟩ <;>
      rcases mem_zip_replace hsecond with hsecond | ⟨hlabel', hsecond⟩
    · exact hmatch.coherent hfirst hsecond
    · exact absurd (hlabel' ▸ hfirst) hnone
    · exact absurd hsecond hnone
    · exact hmatch.coherent hfirst hsecond

theorem SplitsInto.eliminable {result : Graph} (hsplit : SplitsInto graph src target result)
    (helim : Eliminable graph) (hedge : target ∈ graph.successors src) : Eliminable result := by
  have hback := helim.mirrored.mem_iff.mp hedge
  refine ⟨hsplit.mirrored helim.mirrored hedge, ?_, ?_, ?_⟩
  · intro b block op hblock hop hphi
    rcases hsplit.cases hblock with ⟨old, hold, rfl⟩ | ⟨rfl, rfl⟩
    · by_cases hb : b = target
      · subst hb
        simp only [reroute, if_true, mem_map] at hop ⊢
        obtain ⟨before, hbefore, rfl⟩ := hop
        have hmatch := helim.phis hold hbefore (by simpa using hphi)
        rw [← Graph.predecessors_eq hold] at hmatch ⊢
        exact hmatch.relabel (by simpa using hphi) hback
          fun h => absurd (helim.mirrored.lt_size_of_predecessor h) (Nat.lt_irrefl _)
      · simp only [reroute, if_neg hb] at hop ⊢
        exact helim.phis hold hop hphi
    · obtain rfl : op = .branch := by simpa [edgeBlock] using hop
      simp [Operation.isPhi, Operation.branch] at hphi
  · intro b block op hblock hop
    rcases hsplit.cases hblock with ⟨old, hold, rfl⟩ | ⟨rfl, rfl⟩
    · obtain ⟨labels, hops⟩ := exists_labels src target graph.size b old
      rw [hops, ← map_dropLast] at hop
      obtain ⟨before, hbefore, rfl⟩ := mem_map.mp hop
      have hinner := helim.terminators hold hbefore
      exact hinner
    · simp [edgeBlock] at hop
  · intro b block op opnd id hblock hop hopnd hid
    rw [hsplit.locals]
    rcases hsplit.cases hblock with ⟨old, hold, rfl⟩ | ⟨rfl, rfl⟩
    · obtain ⟨labels, hops⟩ := exists_labels src target graph.size b old
      rw [hops] at hop
      obtain ⟨before, hbefore, rfl⟩ := mem_map.mp hop
      exact helim.locals hold hbefore hopnd hid
    · obtain rfl : op = .branch := by simpa [edgeBlock] using hop
      simp [Operation.operands, Operation.branch] at hopnd

/-! ## Runs through the new block -/

open Machine

section

variable {Value Memory : Type} {interp : Interpretation Value Memory} {args : List Value}
variable {graph result : Graph} {src target : Nat}

theorem reroute_terminator? (mid b : Nat) (block : Block) :
    (reroute src target mid b block).terminator? = block.terminator? := by
  unfold reroute Block.terminator?
  by_cases hb : b = target
  · simp only [if_pos hb, getLast?_map]
    cases block.operations.getLast? with
    | none => rfl
    | some op =>
      cases hterm : op.instruction.isTerminator with
      | false => simp [Option.filter, hterm]
      | true =>
        have hphi : op.isPhi = false := by
          cases hop : op.instruction <;> simp_all [Instruction.isTerminator, Operation.isPhi]
        simp [relabel_of_not_phi hphi]
  · simp only [if_neg hb]

variable (interp) in
/-- The same block and state; every phi of the block takes the same value. -/
def SplitRelated (graph : Graph) (src target : Nat) (first second : Position Value Memory) :
    Prop :=
  first.block < graph.size ∧ second.block = first.block ∧ second.state = first.state ∧
    ∀ {block : Block} {op : Operation}, graph.blocks[first.block]? = some block →
      op ∈ block.operations → op.isPhi →
      phiValue interp second.arrival
          (if first.block = target then relabel src graph.size op else op) =
        phiValue interp first.arrival op

variable (args) in
theorem execute_reroute {first second : Position Value Memory} {block : Block}
    (hrel : SplitRelated interp graph src target first second)
    (hblock : graph.blocks[first.block]? = some block) (state : State Value Memory) :
    executeAll interp args second.arrival state
        (reroute src target graph.size first.block block).operations =
      executeAll interp args first.arrival state block.operations := by
  obtain ⟨-, -, -, hphis⟩ := hrel
  have hops : (reroute src target graph.size first.block block).operations =
      block.operations.map fun op =>
        if first.block = target then relabel src graph.size op else op := by
    by_cases hb : first.block = target <;> simp [reroute, hb]
  rw [hops]
  apply executeAll_map
  · intro op hop state
    cases hphi : op.isPhi with
    | true =>
      have hvalue := hphis hblock hop hphi
      by_cases hb : first.block = target
      · simp only [if_pos hb] at hvalue ⊢
        simp only [execute, relabel_isPhi, hphi, if_true, hvalue]
        simp [relabel, hphi]
      · simp only [if_neg hb] at hvalue ⊢
        simp only [execute, hphi, if_true, hvalue]
    | false =>
      simp only [relabel_of_not_phi hphi, ite_self, execute, hphi, if_false, Bool.false_eq_true]
  · intro op hop state
    cases hphi : op.isPhi with
    | true =>
      by_cases hb : first.block = target <;> simp [record, hb, hphi]
    | false => simp only [relabel_of_not_phi hphi, ite_self]

theorem leave_reroute (state : State Value Memory) (b : Nat) (block : Block) :
    leave interp state (reroute src target graph.size b block) = leave interp state block := by
  simp only [leave, reroute_terminator?]

section

variable (hsplit : SplitsInto graph src target result)
include hsplit

/-- The new block does nothing but go on. -/
theorem move_edgeBlock (arrival : Option (Nat × State Value Memory)) (state : State Value Memory) :
    move interp args result ⟨graph.size, arrival, state⟩ =
      .go ⟨graph.size, [⟨.branch, [], state.memory⟩]⟩
        ⟨target, some (graph.size, state), state⟩ := by
  simp [move, hsplit.edge, edgeBlock, executeAll, execute, record, Operation.branch,
    Operation.isPhi, Instruction.isTerminator, leave, Block.terminator?, Option.filter]

section

variable (helim : Eliminable graph) (hedge : target ∈ graph.successors src)
include helim hedge

/-- A phi of the target takes the same value on the old edge and behind the new block. -/
theorem lookup_relabel {block : Block}
    (hblock : graph.blocks[target]? = some block) (hop : op ∈ block.operations) (hphi : op.isPhi) :
    (relabel src graph.size op).inputs.lookup graph.size = op.inputs.lookup src ∧
      (∀ label, label ≠ src → label < graph.size →
        (relabel src graph.size op).inputs.lookup label = op.inputs.lookup label) ∧
      (target ∈ result.successors src →
        (relabel src graph.size op).inputs.lookup src = op.inputs.lookup src) := by
  have hmatch := helim.phis hblock hop hphi
  have hrelabel : relabel src graph.size op =
      { op with labels := op.labels.replace src graph.size } := if_pos hphi
  have hsrc : src ∈ op.labels := by
    rw [hmatch.labels.mem_iff, ← Graph.predecessors_eq hblock]
    exact helim.mirrored.mem_iff.mp hedge
  have hmiddle : graph.size ∉ op.labels := by
    rw [hmatch.labels.mem_iff, ← Graph.predecessors_eq hblock]
    exact fun h => absurd (helim.mirrored.lt_size_of_predecessor h) (Nat.lt_irrefl _)
  refine ⟨?_, ?_, ?_⟩
  · rw [hrelabel]
    exact lookup_replace_new hmatch.length hsrc hmiddle
  · intro label hne hlt
    rw [hrelabel]
    exact lookup_replace_other hne (Nat.ne_of_lt hlt)
  · -- a second edge: its input carries the same value as the one that was relabelled
    intro hagain
    have hnew := hsplit.eliminable helim hedge
    have hblock' := hsplit.kept hblock
    have hop' : relabel src graph.size op ∈
        (reroute src target graph.size target block).operations := by
      simp only [reroute, if_true]
      exact mem_map_of_mem hop
    have hmatch' := hnew.phis hblock' hop' (by simpa using hphi)
    have hback := hnew.mirrored.mem_iff.mp hagain
    rw [Graph.predecessors_eq hblock'] at hback
    obtain ⟨first, hfirst⟩ := hmatch'.exists_input hback
    obtain ⟨second, hsecond⟩ := hmatch.exists_input (hmatch.labels.mem_iff.mp hsrc)
    have hmem : (src, first) ∈ op.inputs := by
      have hlook := mem_of_lookup hfirst
      rw [hrelabel] at hlook
      rcases mem_zip_replace hlook with hold | ⟨heq, -⟩
      · exact hold
      · exact absurd (heq ▸ hsrc) hmiddle
    rw [hfirst, hsecond, hmatch.coherent hmem (mem_of_lookup hsecond)]

/-- Related positions after both graphs left a block on the same edge. -/
theorem splitRelated_next {a b : Nat} (hab : b ∈ graph.successors a)
    (hdirect : a = src → b = target → target ∈ result.successors src)
    (state : State Value Memory) :
    SplitRelated interp graph src target ⟨b, some (a, state), state⟩
      ⟨b, some (a, state), state⟩ := by
  refine ⟨helim.mirrored.lt_size_of_successor hab, rfl, rfl, ?_⟩
  intro block op hblock hop hphi
  dsimp only at hblock ⊢
  by_cases hb : b = target
  · subst hb
    obtain ⟨-, hother, hagain⟩ := lookup_relabel hsplit helim hedge hblock hop hphi
    have hlookup : (relabel src graph.size op).inputs.lookup a = op.inputs.lookup a := by
      by_cases ha : a = src
      · subst ha
        exact hagain (hdirect rfl rfl)
      · exact hother a ha (source_lt_size hab)
    simp only [if_true, phiValue, Option.bind_eq_bind, Option.bind_some, hlookup]
  · simp only [if_neg hb]

theorem splitRelated_bridge (state : State Value Memory) :
    SplitRelated interp graph src target ⟨target, some (src, state), state⟩
      ⟨target, some (graph.size, state), state⟩ := by
  refine ⟨helim.mirrored.lt_size_of_successor hedge, rfl, rfl, ?_⟩
  intro block op hblock hop hphi
  obtain ⟨hmiddle, -, -⟩ := lookup_relabel hsplit helim hedge hblock hop hphi
  simp only [if_true, phiValue, Option.bind_eq_bind, Option.bind_some, hmiddle]

/-- Runs of the graph with a block on an edge, that block left out. -/
theorem splitEdge_simulates {isEdge : Nat → Bool} (hmiddle : isEdge graph.size)
    (isInserted : Operation → Bool) : Simulates interp args isEdge isInserted graph result
      (SplitRelated interp graph src target) where
  block hrel := hrel.2.1
  memory hrel := by rw [hrel.2.2.1]
  halt {first second trace} hrel hmove hdef := by
    refine ⟨trace, ?_, rfl⟩
    have hexecAll := fun {block : Block} (hblock : graph.blocks[first.block]? = some block) =>
      execute_reroute args hrel hblock first.state
    obtain ⟨hlt, hblocks, hstates, -⟩ := hrel
    rcases move_eq_halt hmove hdef with ⟨hnone, -⟩ | ⟨block, state, events, hblock, hexec, hend⟩
    · exact absurd hlt (by simpa [Graph.size] using hnone)
    · rw [← hexecAll hblock] at hexec
      rcases hend with ⟨vals, hleave, rfl⟩ | ⟨slot, hleave, hslot, rfl⟩
      · simp [move, hblocks, hstates, hsplit.kept hblock, hexec, leave_reroute, hleave]
      · have hslot' : (reroute src target graph.size first.block block).successors[slot]? =
            none := by
          simp only [reroute]
          split <;> simp_all
        simp [move, hblocks, hstates, hsplit.kept hblock, hexec, leave_reroute, hleave, hslot']
  go {first second visit next} hrel hmove := by
    obtain ⟨block, state, events, slot, b, hblock, hexec, hleave, hslot, rfl, rfl⟩ :=
      move_eq_go hmove
    rw [← execute_reroute args hrel hblock first.state] at hexec
    obtain ⟨hlt, hblocks, hstates, -⟩ := hrel
    have hab : b ∈ graph.successors first.block := by
      rw [Graph.successors_eq hblock]
      exact mem_of_getElem? hslot
    have hkept := hsplit.kept hblock
    have hmove' : ∀ c, (reroute src target graph.size first.block block).successors[slot]? =
        some c → move interp args result second =
          .go ⟨first.block, events⟩ ⟨c, some (first.block, state), state⟩ := by
      intro c hc
      simp [move, hblocks, hstates, hkept, hexec, leave_reroute, hleave, hc]
    by_cases hsrc : first.block = src
    · have hsucc : (reroute src target graph.size first.block block).successors =
          block.successors.replace target graph.size := if_pos hsrc
      rcases getElem?_replace_cases block.successors target graph.size slot with
        hsame | ⟨hold, hnew⟩ <;> rw [hslot] at *
      · refine ⟨_, _, hmove' b (hsucc ▸ hsame), rfl, .inl ?_⟩
        refine splitRelated_next hsplit helim hedge hab (fun _ htarget => ?_) state
        rw [← hsrc, Graph.successors_eq hkept, hsucc]
        have hmem := mem_of_getElem? hsame
        rwa [htarget] at hmem
      · obtain rfl := Option.some.inj hold
        refine ⟨_, _, hmove' graph.size (hsucc ▸ hnew), rfl, .inr ?_⟩
        refine ⟨_, _, move_edgeBlock hsplit _ _, ?_, ?_⟩
        · simp [erasedVisit, Trace.erase, hmiddle]
        · rw [hsrc]
          exact splitRelated_bridge hsplit helim hedge state
    · have hsucc : (reroute src target graph.size first.block block).successors =
          block.successors := if_neg hsrc
      refine ⟨_, _, hmove' b (hsucc ▸ hslot), rfl, .inl ?_⟩
      exact splitRelated_next hsplit helim hedge hab (fun h => absurd h hsrc) state

end

end

end

end GraphJit.SSA
