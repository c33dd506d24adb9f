import GraphJit.Proofs.Machine
import Mathlib.Tactic.Common

/-! # Comparing runs

Two graphs are compared block by block: positions are related, related positions
make matching moves, and the second graph may pass through one block that is
left out of the comparison. Runs of any length then match.
-/

namespace GraphJit.Machine

open List

variable {Value Memory : Type} {interp : Interpretation Value Memory} {args : List Value}

@[simp] theorem State.write_memory (state : State Value Memory) (dest : Option Operand)
    (value : Value) : (state.write dest value).memory = state.memory := by
  unfold write
  split <;> rfl

variable {arrival : Option (Nat × State Value Memory)} {state : State Value Memory} {graph : Graph}
  {pos : Position Value Memory} {ops : List Operation} {trace : Trace Value Memory}

theorem executeAll_append {first second : List Operation} :
    executeAll interp args arrival state (first ++ second) =
      match executeAll interp args arrival state first with
      | none => none
      | some (mid, events) =>
        match executeAll interp args arrival mid second with
        | none => none
        | some (last, more) => some (last, events ++ more) := by
  induction first generalizing state with
  | nil =>
    simp only [nil_append, executeAll]
    cases executeAll interp args arrival state second <;> rfl
  | cons op rest ih =>
    simp only [cons_append, executeAll]
    cases execute interp args arrival state op with
    | none => rfl
    | some next =>
      simp only [ih]
      cases executeAll interp args arrival next rest with
      | none => rfl
      | some mid =>
        simp only
        cases executeAll interp args arrival mid.1 second with
        | none => rfl
        | some last => simp only [append_assoc]

theorem move_eq_go {next : Position Value Memory} {visit : Visit Value Memory}
    (hmove : move interp args graph pos = .go visit next) :
    ∃ block state events slot target, graph.blocks[pos.block]? = some block ∧
      executeAll interp args pos.arrival pos.state block.operations = some (state, events) ∧
      leave interp state block = .ok slot ∧ block.successors[slot]? = some target ∧
      visit = ⟨pos.block, events⟩ ∧ next = ⟨target, some (pos.block, state), state⟩ := by
  unfold move at hmove
  split at hmove
  next => simp at hmove
  next block hblock =>
    split at hmove
    next => simp at hmove
    next state events hexec =>
      split at hmove
      next => simp at hmove
      next slot hleave =>
        split at hmove
        next => simp at hmove
        next target htarget =>
          simp only [Move.go.injEq] at hmove
          exact ⟨block, state, events, slot, target, hblock, hexec, hleave, htarget,
            hmove.1.symm, hmove.2.symm⟩

/-- The ways to stop at a block whose phis have their inputs. -/
theorem move_eq_halt (hmove : move interp args graph pos = .halt trace)
    (hdef : trace.ending ≠ .undefined) : (graph.blocks[pos.block]? = none ∧ trace = ⟨[], .stuck⟩) ∨
      ∃ block state events, graph.blocks[pos.block]? = some block ∧
        executeAll interp args pos.arrival pos.state block.operations = some (state, events) ∧
        ((∃ vals, leave interp state block = .error vals ∧
            trace = ⟨[⟨pos.block, events⟩], .returned vals state.memory⟩) ∨
          ∃ slot, leave interp state block = .ok slot ∧ block.successors[slot]? = none ∧
            trace = ⟨[⟨pos.block, events⟩], .stuck⟩) := by
  unfold move at hmove
  split at hmove
  next hblock =>
    cases hmove
    exact .inl ⟨hblock, rfl⟩
  next block hblock =>
    split at hmove
    next =>
      cases hmove
      exact absurd rfl hdef
    next state events hexec =>
      refine .inr ⟨block, state, events, hblock, hexec, ?_⟩
      split at hmove
      next vals hleave =>
        cases hmove
        exact .inl ⟨vals, hleave, rfl⟩
      next slot hleave =>
        split at hmove
        next htarget =>
          cases hmove
          exact .inr ⟨slot, hleave, htarget, rfl⟩
        next => simp at hmove

/-- A run is undefined at a block only because its operations cannot be carried out. -/
theorem move_eq_undefined (hmove : move interp args graph pos = .halt trace)
    (hundef : trace.ending = .undefined) :
    trace = ⟨[], .undefined⟩ ∧ ∃ block, graph.blocks[pos.block]? = some block ∧
      executeAll interp args pos.arrival pos.state block.operations = none := by
  unfold move at hmove
  split at hmove
  next =>
    cases hmove
    simp at hundef
  next block hblock =>
    split at hmove
    next hnone =>
      cases hmove
      exact ⟨rfl, block, hblock, hnone⟩
    next =>
      split at hmove
      next =>
        cases hmove
        simp at hundef
      next =>
        split at hmove <;> cases hmove
        simp at hundef

/-- Operations can be carried out if every phi has its input. -/
theorem executeAll_isSome (hphis : ∀ op ∈ ops, op.isPhi → (phiValue interp arrival op).isSome)
    (state : State Value Memory) : (executeAll interp args arrival state ops).isSome := by
  induction ops generalizing state with
  | nil => rfl
  | cons op rest ih =>
    have hexec : (execute interp args arrival state op).isSome := by
      unfold execute
      split
      next hphi => simpa using hphis op mem_cons_self hphi
      next => split <;> rfl
    obtain ⟨next, hnext⟩ := Option.isSome_iff_exists.mp hexec
    obtain ⟨last, hlast⟩ := Option.isSome_iff_exists.mp
      (ih (fun op hop => hphis op (.tail _ hop)) next)
    simp only [executeAll, hnext, hlast, Option.isSome_some]

section

variable {last : State Value Memory} {events : List (Event Value Memory)}

theorem of_executeAll_cons {op : Operation}
    (hexec : executeAll interp args arrival state (op :: ops) = some (last, events)) :
    ∃ next more, execute interp args arrival state op = some next ∧
      executeAll interp args arrival next ops = some (last, more) ∧
      events = record interp state op ++ more := by
  simp only [executeAll] at hexec
  split at hexec
  next => simp at hexec
  next next hnext =>
    split at hexec
    next => simp at hexec
    next last more hmore =>
      cases hexec
      exact ⟨next, more, hnext, hmore, rfl⟩

theorem operation_mem_of_event
    (hexec : executeAll interp args arrival state ops = some (last, events)) :
    ∀ event ∈ events, event.operation ∈ ops := by
  induction ops generalizing state events with
  | nil =>
    cases hexec
    simp
  | cons op rest ih =>
    obtain ⟨next, more, -, hmore, rfl⟩ := of_executeAll_cons hexec
    intro event hevent
    rcases mem_append.mp hevent with hhead | htail
    · unfold record at hhead
      split at hhead
      next => simp at hhead
      next =>
        rw [mem_singleton.mp hhead]
        exact mem_cons_self
    · exact .tail _ (ih hmore event htail)

end

/-- Operations can be exchanged for others with the same effects. -/
theorem executeAll_map {first second : Option (Nat × State Value Memory)}
    {change : Operation → Operation}
    (hexec : ∀ op ∈ ops, ∀ state, execute interp args second state (change op) =
      execute interp args first state op)
    (hrecord : ∀ op ∈ ops, ∀ state, record interp state (change op) = record interp state op) :
    executeAll interp args second state (ops.map change) =
      executeAll interp args first state ops := by
  induction ops generalizing state with
  | nil => rfl
  | cons op rest ih =>
    simp only [map_cons, executeAll, hexec op mem_cons_self, hrecord op mem_cons_self]
    cases execute interp args first state op with
    | none => rfl
    | some next =>
      simp only [ih (fun op hop => hexec op (.tail _ hop)) (fun op hop => hrecord op (.tail _ hop))]

/-! ## Matching runs -/

section

variable (isEdge : Nat → Bool) (isInserted : Operation → Bool)

theorem Trace.erase_cons (visit : Visit Value Memory) (trace : Trace Value Memory) :
    (Trace.mk (visit :: trace.visits) trace.ending).erase isEdge isInserted =
      ⟨((Trace.mk [visit] trace.ending).erase isEdge isInserted).visits ++
          (trace.erase isEdge isInserted).visits, trace.ending⟩ := by
  unfold Trace.erase
  cases hedge : isEdge visit.block <;> simp [hedge]

/-- The visits that remain of one visit. -/
def erasedVisit (visit : Visit Value Memory) : List (Visit Value Memory) :=
  ((Trace.mk [visit] .stuck).erase isEdge isInserted).visits

theorem run_go {pos next : Position Value Memory} {visit : Visit Value Memory}
    {bound : Nat} (hmove : move interp args graph pos = .go visit next) :
    (run interp args graph (bound + 1) pos).erase isEdge isInserted =
      ⟨erasedVisit isEdge isInserted visit ++
          ((run interp args graph bound next).erase isEdge isInserted).visits,
        ((run interp args graph bound next).erase isEdge isInserted).ending⟩ := by
  simp only [run, hmove]
  rw [Trace.erase_cons]
  rfl

variable (interp args) in
/-- Related positions make matching moves, unless the first is undefined. The second graph
may go through one block that is left out of the comparison. -/
structure Simulates (src target : Graph)
    (related : Position Value Memory → Position Value Memory → Prop) : Prop where
  block : ∀ {first second}, related first second → second.block = first.block
  memory : ∀ {first second}, related first second → second.state.memory = first.state.memory
  halt : ∀ {first second trace}, related first second →
    move interp args src first = .halt trace → trace.ending ≠ .undefined →
    ∃ final, move interp args target second = .halt final ∧
      final.erase isEdge isInserted = trace.erase isEdge isInserted
  go : ∀ {first second visit next}, related first second →
    move interp args src first = .go visit next →
    ∃ seen after, move interp args target second = .go seen after ∧
      erasedVisit isEdge isInserted seen = erasedVisit isEdge isInserted visit ∧
      (related next after ∨ ∃ bridge final, move interp args target after = .go bridge final ∧
          erasedVisit isEdge isInserted bridge = [] ∧ related next final)

/-- A matching run exists for every bound. It may take more blocks, but never fewer. -/
theorem Simulates.run {src target : Graph}
    {related : Position Value Memory → Position Value Memory → Prop}
    (hsim : Simulates interp args isEdge isInserted src target related) (bound : Nat)
    {first second : Position Value Memory} (hrel : related first second)
    (hdef : (run interp args src bound first).ending ≠ .undefined) : ∃ longer, bound ≤ longer ∧
      (Machine.run interp args target longer second).erase isEdge isInserted =
        (Machine.run interp args src bound first).erase isEdge isInserted := by
  induction bound generalizing first second with
  | zero =>
    refine ⟨0, Nat.le_refl _, ?_⟩
    simp only [Machine.run, hsim.block hrel, hsim.memory hrel]
  | succ bound ih =>
    cases hmove : move interp args src first with
    | halt trace =>
      simp only [Machine.run, hmove] at hdef ⊢
      obtain ⟨final, hfinal, herase⟩ := hsim.halt hrel hmove hdef
      refine ⟨bound + 1, Nat.le_refl _, ?_⟩
      simp only [Machine.run, hfinal, herase]
    | go visit next =>
      have hnext : (Machine.run interp args src bound next).ending ≠ .undefined := by
        simpa only [Machine.run, hmove] using hdef
      obtain ⟨seen, after, hseen, herase, hcase⟩ := hsim.go hrel hmove
      rcases hcase with hafter | ⟨bridge, final, hbridge, hempty, hfinal⟩
      · obtain ⟨longer, hlonger, hrun⟩ := ih hafter hnext
        refine ⟨longer + 1, by omega, ?_⟩
        rw [run_go isEdge isInserted hseen, run_go isEdge isInserted hmove, herase, hrun]
      · obtain ⟨longer, hlonger, hrun⟩ := ih hfinal hnext
        refine ⟨longer + 2, by omega, ?_⟩
        rw [run_go isEdge isInserted hseen, run_go isEdge isInserted hbridge,
          run_go isEdge isInserted hmove, herase, hempty, hrun]
        rfl

end

end GraphJit.Machine
