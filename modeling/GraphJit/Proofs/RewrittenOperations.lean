import GraphJit.Proofs.Construction
import GraphJit.Proofs.ParsedGraphs
import GraphJit.Proofs.Rebasing

/-! # What passes make of operations

Passes put locals in the place of registers and add phis and copies; otherwise an
operation stays as it is, and so do the edges. The table of locals only grows. A rule
about operands, read against the table in the end, therefore holds after a pass if it
held before and new locals keep to it.
-/

namespace GraphJit

open GraphJit.Graph Dominance List

/-! ## Changes that leave the edges alone -/

section SameEdges

variable {graph mid result : Graph}

theorem Dominance.SameEdges.refl (graph : Graph) : SameEdges graph graph :=
  ⟨rfl, fun hblock => ⟨_, hblock, rfl, rfl, rfl⟩⟩

theorem Dominance.SameEdges.trans (hfirst : SameEdges graph mid)
    (hsecond : SameEdges mid result) : SameEdges graph result := by
  refine ⟨hsecond.size.trans hfirst.size, fun hblock => ?_⟩
  obtain ⟨other, hother, hindex, hsuccs, hpreds⟩ := hfirst.kept hblock
  obtain ⟨last, hlast, hindex', hsuccs', hpreds'⟩ := hsecond.kept hother
  exact ⟨last, hlast, hindex'.trans hindex, hsuccs'.trans hsuccs, hpreds'.trans hpreds⟩

theorem sameEdges_modify (graph : Graph) (b : Nat) (ops : Block → List Operation) :
    SameEdges graph { graph with blocks := graph.blocks.modify b fun block =>
        { block with operations := ops block } } := by
  refine ⟨Array.size_modify, fun {q block} hblock => ?_⟩
  rw [Array.getElem?_modify, hblock]
  split
  · exact ⟨_, rfl, rfl, rfl, rfl⟩
  · exact ⟨_, rfl, rfl, rfl, rfl⟩

end SameEdges

/-! ## Growing tables -/

namespace LocalTable

/-- One table continues another. -/
def Extends (first second : LocalTable) : Prop := ∃ more, second.types = first.types ++ more

theorem Extends.refl (table : LocalTable) : Extends table table := ⟨#[], by simp⟩

theorem Extends.trans {first second third : LocalTable} (hfirst : Extends first second)
    (hsecond : Extends second third) : Extends first third := by
  obtain ⟨more, hmore⟩ := hfirst
  obtain ⟨rest, hrest⟩ := hsecond
  exact ⟨more ++ rest, by rw [hrest, hmore, Array.append_assoc]⟩

theorem Extends.count_le {first second : LocalTable} (hext : Extends first second) :
    first.count ≤ second.count := by
  obtain ⟨more, hmore⟩ := hext
  simp [count, hmore]

theorem extends_fresh (table : LocalTable) (type : ValueType) :
    table.Extends (table.fresh type).2 :=
  ⟨#[some type], Array.push_eq_append⟩

theorem extends_assign (vars : List GuestVariable) (table : LocalTable) :
    table.Extends (GuestVariable.assign table vars).2 := by
  induction vars generalizing table with
  | nil => exact .refl table
  | cons var rest ih => exact (table.extends_fresh var.type).trans (ih _)

end LocalTable

/-! ## Rules -/

/-- A property of operands, and of the locals that may stand for a register. The locals that
are made on the way to the final table have it. -/
structure OperandRule (vars : List GuestVariable) (final : LocalTable) where
  fits : Operand → Prop
  stands : GuestRegister → Nat → Prop
  constant : ∀ bits type, fits (.constant bits type)
  register : ∀ var ∈ vars, fits (.register var.register var.type)
  named : ∀ {var : GuestVariable} {reg : GuestRegister} {id : Nat} {type : ValueType},
    GuestVariable.find? vars reg = some var → fits (.register reg type) →
    stands reg id → fits (.localVar id type)
  fresh : ∀ {var : GuestVariable} {table : LocalTable},
    GuestVariable.find? vars var.register = some var → (table.fresh var.type).2.Extends final →
    stands var.register (table.fresh var.type).1

/-- The rule that asks for nothing. -/
def anyOperand (vars : List GuestVariable) (final : LocalTable) : OperandRule vars final where
  fits _ := True
  stands _ _ := True
  constant _ _ := trivial
  register _ _ := trivial
  named _ _ _ := trivial
  fresh _ _ := trivial

variable {vars : List GuestVariable} {final : LocalTable} (rule : OperandRule vars final)

namespace OperandRule

/-- All operands fit. -/
def Admits (op : Operation) : Prop := ∀ opnd ∈ op.operands, rule.fits opnd

/-- The rule holds of all operations of a graph. -/
def Obeyed (graph : Graph) : Prop := ∀ ⦃b : Nat⦄ ⦃block : Block⦄, graph.blocks[b]? = some block →
    ∀ op ∈ block.operations, rule.Admits op

theorem obeyed_anyOperand (vars : List GuestVariable) (final : LocalTable) (graph : Graph) :
    (anyOperand vars final).Obeyed graph :=
  fun _ _ _ _ _ _ _ => trivial

/-- The edges of a graph, under operations that obey the rule. -/
structure Rewrites (src graph : Graph) : Prop where
  edges : SameEdges src graph
  obeyed : rule.Obeyed graph

/-- The locals of a scope may stand for their registers. -/
def Stands (scope : SSA.Scope) : Prop :=
  ∀ ⦃reg id⦄, scope.lookup reg = some id → rule.stands reg id

variable {rule} {src graph : Graph} {op : Operation} {opnd : Operand}

theorem mem_operands_iff : opnd ∈ op.operands ↔ op.destination = some opnd ∨ opnd ∈ op.sources := by
  rw [Operation.operands, mem_append, Option.mem_toList]

theorem Admits.rewritten {dest : Option Operand} {sources : List Operand}
    (hdest : ∀ opnd, dest = some opnd → rule.fits opnd)
    (hsrcs : ∀ opnd ∈ sources, rule.fits opnd) :
    rule.Admits { op with destination := dest, sources } :=
  fun opnd hopnd => (mem_operands_iff.mp hopnd).elim (hdest opnd) (hsrcs opnd)

theorem Admits.destination (hop : rule.Admits op) (hdest : op.destination = some opnd) :
    rule.fits opnd :=
  hop opnd (mem_operands_iff.mpr (.inl hdest))

theorem Admits.sources (hop : rule.Admits op) : ∀ src ∈ op.sources, rule.fits src :=
  fun src hsrc => hop src (mem_operands_iff.mpr (.inr hsrc))

theorem Rewrites.modify (hgraph : rule.Rewrites src graph) (b : Nat)
    (ops : Block → List Operation) (hops : ∀ ⦃block⦄, graph.blocks[b]? = some block →
      ∀ op ∈ ops block, rule.Admits op) : rule.Rewrites src { graph with
      blocks := graph.blocks.modify b fun block =>
        { block with operations := ops block } } := by
  refine ⟨hgraph.edges.trans (sameEdges_modify graph b ops), fun c block hblock => ?_⟩
  rw [Array.getElem?_modify] at hblock
  split at hblock
  next hc =>
    obtain ⟨old, hold, rfl⟩ := Option.map_eq_some_iff.mp hblock
    exact hops (hc ▸ hold)
  next => exact hgraph.obeyed hblock

theorem admits_copy_zero {id : Nat} {type : ValueType} (hfits : rule.fits (.localVar id type)) :
    rule.Admits (.copy (.localVar id type) (.zero type)) := by
  rw [Admits, Operation.copy]
  refine forall_mem_cons.mpr ⟨hfits, forall_mem_singleton.mpr ?_⟩
  exact rule.constant ..

theorem Rewrites.insertZeroInits (hgraph : rule.Rewrites src graph)
    {locals : List (Nat × ValueType)}
    (hlocals : ∀ entry ∈ locals, rule.fits (.localVar entry.1 entry.2)) :
    rule.Rewrites src (graph.insertZeroInits locals) := by
  refine hgraph.modify entry _ fun block hblock op hop => ?_
  rcases mem_append.mp hop with hop | hop
  · rcases mem_append.mp hop with hop | hop
    · exact hgraph.obeyed hblock op (takeWhile_subset _ hop)
    · obtain ⟨pair, hpair, rfl⟩ := mem_map.mp hop
      exact admits_copy_zero (hlocals pair hpair)
  · exact hgraph.obeyed hblock op (mem_of_mem_drop hop)

theorem stands_nil : rule.Stands [] := by
  rintro reg id ⟨⟩

theorem Stands.cons {scope : SSA.Scope} {reg : GuestRegister} {id : Nat}
    (hscope : rule.Stands scope) (hid : rule.stands reg id) :
    rule.Stands ((reg, id) :: scope) := by
  intro other entry hentry
  rw [SSA.lookup_cons] at hentry
  split at hentry
  next heq =>
    cases hentry
    exact heq ▸ hid
  next => exact hscope hentry

end OperandRule

namespace SSA

open OperandRule

variable {rule} {src graph result : Graph} {scope : Scope}

/-! ## Renaming -/

variable (rule src) in
/-- What holds at any time of a renaming. -/
structure Obeys (state : Renaming) : Prop where
  rewrites : rule.Rewrites src state.graph
  zeros : rule.Stands state.zeros
  scopes : ∀ scope ∈ state.scopes, rule.Stands scope

variable {r : Rebasing}

variable (rule src r) in
/-- What an action does, and another one over another table. The table only grows. Where it stays
within the final one, the action keeps to the rule and its answer is as described. Where the
numbers of both tables are words, the other action does the same, but for the numbers. -/
def Tracks {α β : Type} (given : Prop) (post : α → Prop) (image : α → β) (first : Rename α)
    (second : Rename β) : Prop :=
  ∀ ⦃state last : Renaming⦄ ⦃a : α⦄, first state = .ok (a, last) →
    state.graph.locals.Extends last.graph.locals ∧
      (given → last.graph.locals.Extends final → Obeys rule src state →
        Obeys rule src last ∧ post a) ∧
      (r.floor ≤ state.graph.locals.count → r.Room last.graph.locals.count →
        second (r.state state) = .ok (image a, r.state last))

namespace Tracks

variable {α β γ δ : Type} {given given' : Prop} {post : α → Prop} {post' : γ → Prop}
  {image : α → β} {image' : γ → δ}

theorem imp {first : Rename α} {second : Rename β}
    (htracks : Tracks rule src r given post image first second) (hgiven : given' → given) :
    Tracks rule src r given' post image first second := by
  intro state last a hrun
  obtain ⟨hgrows, hkeeps, hruns⟩ := htracks hrun
  exact ⟨hgrows, fun h => hkeeps (hgiven h), hruns⟩

theorem pure (a : α) (ha : given → post a) :
    Tracks rule src r given post image (Pure.pure a) (Pure.pure (image a)) := by
  intro state last b hrun
  cases hrun
  exact ⟨.refl _, fun h _ hstate => ⟨hstate, ha h⟩, fun _ _ => rfl⟩

theorem bind {first : Rename α} {second : Rename β} {next : α → Rename γ} {next' : β → Rename δ}
    (hfirst : Tracks rule src r given post image first second)
    (hnext : ∀ a, Tracks rule src r (given ∧ post a) post' image' (next a) (next' (image a))) :
    Tracks rule src r given post' image' (first >>= next) (second >>= next') := by
  intro state last c hrun
  obtain ⟨⟨a, mid⟩, hmiddle, hlast⟩ := of_bind hrun
  obtain ⟨hgrows, hkeeps, hruns⟩ := hfirst hmiddle
  obtain ⟨hgrows', hkeeps', hruns'⟩ := hnext a hlast
  refine ⟨hgrows.trans hgrows', fun h hfinal hstate => ?_, fun hfloor hroom => ?_⟩
  · obtain ⟨hobeys, ha⟩ := hkeeps h (hgrows'.trans hfinal) hstate
    exact hkeeps' ⟨h, ha⟩ hfinal hobeys
  · have hmiddle' := hruns hfloor (Nat.le_trans (Nat.add_le_add_left hgrows'.count_le _) hroom)
    exact bind_eq_ok.mpr ⟨_, hmiddle', hruns' (Nat.le_trans hfloor hgrows.count_le) hroom⟩

theorem get_bind {next : Renaming → Rename γ} {next' : Renaming → Rename δ}
    (hnext : ∀ state, Tracks rule src r (given ∧ Obeys rule src state) post' image' (next state)
      (next' (r.state state))) :
    Tracks rule src r given post' image' (get >>= next) (get >>= next') := by
  intro state last c hrun
  obtain ⟨hgrows, hkeeps, hruns⟩ := hnext state hrun
  exact ⟨hgrows, fun h hfinal hstate => hkeeps ⟨h, hstate⟩ hfinal hstate, hruns⟩

theorem throw (cause : Fault) (second : Rename β) :
    Tracks rule src r given post image (MonadExceptOf.throw cause) second := by
  intro state last a hrun
  cases hrun

theorem block_bind {b : Nat} {next : Block → Rename γ} {next' : Block → Rename δ}
    (hnext : ∀ block, graph.blocks[b]? = some block →
      Tracks rule src r given post' image' (next block) (next' (r.block block))) :
    Tracks rule src r given post' image' ((liftM (graph.block b) : Rename Block) >>= next)
      ((liftM ((r.graph graph).block b) : Rename Block) >>= next') := by
  rw [Rebasing.block_graph]
  unfold Graph.block
  split
  next block hblock => exact hnext block hblock
  next => exact throw _ _

theorem modify {change change' : Renaming → Renaming}
    (hgraph : ∀ state, (change state).graph = state.graph)
    (hkeeps : ∀ state, given → Obeys rule src state → Obeys rule src (change state))
    (hchange : ∀ state, change' (r.state state) = r.state (change state)) :
    Tracks rule src r given (fun _ => True) id (modifyGet fun state => ((), change state))
      (modifyGet fun state => ((), change' state)) := by
  intro state last a hrun
  cases hrun
  refine ⟨hgraph state ▸ .refl _, fun h _ hstate => ⟨hkeeps state h hstate, trivial⟩, fun _ _ => ?_⟩
  exact congrArg (fun state => Except.ok ((), state)) (hchange state)

theorem mapM {step : α → Rename γ} {step' : β → Rename δ} {items : List α}
    (hstep : ∀ a ∈ items, Tracks rule src r given post' image' (step a) (step' (image a))) :
    Tracks rule src r given (fun cs => ∀ c ∈ cs, post' c) (List.map image') (items.mapM step)
      ((items.map image).mapM step') := by
  induction items with
  | nil => exact pure [] (by simp)
  | cons a rest ih =>
    rw [forall_mem_cons] at hstep
    rw [map_cons, mapM_cons, mapM_cons]
    refine hstep.1.bind fun c => ((ih hstep.2).imp And.left).bind fun cs => pure (c :: cs) ?_
    exact fun h => forall_mem_cons.mpr ⟨h.1.2, h.2⟩

theorem forM {step step' : α → Rename Unit}
    (hstep : ∀ a, Tracks rule src r given (fun _ => True) id (step a) (step' a)) (items : List α) :
    Tracks rule src r given (fun _ => True) id (items.forM step) (items.forM step') := by
  induction items with
  | nil => exact pure () fun _ => trivial
  | cons a rest ih => exact (hstep a).bind fun _ => ih.imp And.left

end Tracks

section

variable {var : GuestVariable} {given : Prop}
  (hvar : GuestVariable.find? vars var.register = some var)
include hvar

theorem tracks_freshLocal : Tracks rule src r given (rule.stands var.register) r.number
    (freshLocal var) (freshLocal var) := by
  intro state last id hrun
  cases hrun
  refine ⟨LocalTable.extends_fresh _ _, fun _ hfinal hstate => ⟨⟨⟨?_, hstate.rewrites.obeyed⟩,
    hstate.zeros, hstate.scopes⟩, rule.fresh hvar hfinal⟩, fun hfloor hroom => ?_⟩
  · exact ⟨hstate.rewrites.edges.size, hstate.rewrites.edges.kept⟩
  · have hfresh := r.fresh_table var.type hfloor (Rebasing.count_fresh _ _ ▸ hroom)
    simp only [freshLocal, Rebasing.state, Rebasing.locals_graph, hfresh]
    rfl

theorem tracks_zeroLocal : Tracks rule src r given (rule.stands var.register) r.number
    (zeroLocal var) (zeroLocal var) := by
  refine .get_bind fun state => ?_
  simp only [Rebasing.state, Rebasing.lookup_scope]
  cases hid : state.zeros.lookup var.register with
  | some id => exact .pure id fun h => h.2.zeros hid
  | none =>
    refine (tracks_freshLocal hvar).bind fun id => ?_
    refine Tracks.bind (Tracks.modify (fun _ => rfl) (fun state h hstate => ?_) fun _ => ?_)
      fun _ => .pure id fun h => h.1.2
    · exact ⟨hstate.rewrites, hstate.zeros.cons h.2, hstate.scopes⟩
    · rfl

end

variable {opnd : Operand} {op : Operation}

theorem tracks_renameUse : Tracks rule src r (rule.Stands scope ∧ rule.fits opnd) rule.fits
    r.operand (renameUse vars scope opnd)
    (renameUse vars (r.scope scope) (r.operand opnd)) := by
  cases opnd with
  | constant bits type => exact .pure (Operand.constant bits type) And.right
  | localVar id type => exact .pure (Operand.localVar id type) And.right
  | register reg type =>
    simp only [renameUse, Rebasing.operand, Rebasing.lookup_scope]
    cases hvar : GuestVariable.find? vars reg with
    | none => exact .pure (Operand.register reg type) And.right
    | some var =>
      obtain rfl := register_of_find? hvar
      cases hid : scope.lookup var.register with
      | some id => exact .pure (Operand.localVar id type) fun h => rule.named hvar h.2 (h.1 hid)
      | none =>
        exact (tracks_zeroLocal hvar).bind fun id => .pure (Operand.localVar id type) fun h =>
          rule.named hvar h.1.2 h.2

theorem tracks_renameDefinition : Tracks rule src r (rule.Stands scope ∧ rule.fits opnd)
    (fun renamed => rule.fits renamed.1 ∧ rule.Stands renamed.2) (Prod.map r.operand r.scope)
    (renameDefinition vars scope opnd)
    (renameDefinition vars (r.scope scope) (r.operand opnd)) := by
  cases opnd with
  | constant bits type => exact .pure (Operand.constant bits type, scope) And.symm
  | localVar id type => exact .pure (Operand.localVar id type, scope) And.symm
  | register reg type =>
    simp only [renameDefinition, Rebasing.operand]
    cases hvar : GuestVariable.find? vars reg with
    | none => exact .pure (Operand.register reg type, scope) And.symm
    | some var =>
      obtain rfl := register_of_find? hvar
      refine (tracks_freshLocal hvar).bind fun id =>
        .pure (Operand.localVar id type, (var.register, id) :: scope) fun h => ?_
      exact ⟨rule.named hvar h.1.2 h.2, h.1.1.cons h.2⟩

theorem tracks_renameOperation (readsInputs : Bool) :
    Tracks rule src r (rule.Stands scope ∧ rule.Admits op)
      (fun renamed => rule.Admits renamed.1 ∧ rule.Stands renamed.2) (Prod.map r.operation r.scope)
      (renameOperation vars readsInputs scope op)
      (renameOperation vars readsInputs (r.scope scope) (r.operation op)) := by
  have hsrcs : Tracks rule src r (rule.Stands scope ∧ rule.Admits op)
      (fun sources => ∀ opnd ∈ sources, rule.fits opnd) (List.map r.operand)
      (renameSources vars readsInputs scope op)
      (renameSources vars readsInputs (r.scope scope) (r.operation op)) := by
    unfold renameSources
    rw [Rebasing.isPhi_operation]
    split
    · exact .pure op.sources fun h => h.2.sources
    · exact .mapM fun opnd hopnd => tracks_renameUse.imp fun h => ⟨h.1, h.2.sources opnd hopnd⟩
  rw [renameOperation_eq, renameOperation_eq]
  refine hsrcs.bind fun sources => ?_
  rw [Rebasing.destination_operation]
  cases hdest : op.destination with
  | none =>
    refine .pure ({ op with sources, destination := none }, scope) ?_
    exact fun h => ⟨.rewritten (by simp) h.2, h.1.1⟩
  | some opnd =>
    refine (tracks_renameDefinition.imp fun h => ⟨h.1.1, h.1.2.destination hdest⟩).bind
      fun renamed => .pure ({ op with sources, destination := some renamed.1 }, renamed.2)
        fun h => ⟨.rewritten (fun _ heq => ?_) h.1.2, h.2.2⟩
    cases heq
    exact h.2.1

theorem tracks_renameInputs (b : Nat) {labels : List Nat} {sources : List Operand} :
    Tracks rule src r (rule.Stands scope ∧ ∀ src ∈ sources, rule.fits src)
      (fun sources => ∀ src ∈ sources, rule.fits src) (List.map r.operand)
      (renameInputs vars scope b labels sources)
      (renameInputs vars (r.scope scope) b labels (sources.map r.operand)) := by
  induction labels generalizing sources with
  | nil => exact .pure sources And.right
  | cons label labels ih =>
    cases sources with
    | nil =>
      rw [map_nil, renameInputs, renameInputs]
      split
      · exact .throw _ _
      · exact ih
    | cons opnd rest =>
      rw [forall_mem_cons, map_cons, renameInputs, renameInputs]
      split
      on_goal 1 => refine (tracks_renameUse.imp fun h => ⟨h.1, h.2.1⟩).bind fun new => ?_
      on_goal 2 => refine (Tracks.pure opnd fun h => h.2.1).bind fun new => ?_
      all_goals
        refine (ih.imp fun h => ⟨h.1.1, h.1.2.2⟩).bind fun others => .pure (new :: others) ?_
        exact fun h => forall_mem_cons.mpr ⟨h.1.2, h.2⟩

theorem tracks_feedOperation (b : Nat) :
    Tracks rule src r (rule.Stands scope ∧ rule.Admits op) rule.Admits r.operation
      (feedOperation vars scope b op) (feedOperation vars (r.scope scope) b (r.operation op)) := by
  unfold feedOperation
  rw [Rebasing.isPhi_operation]
  split
  next =>
    refine ((tracks_renameInputs b).imp fun h => ⟨h.1, h.2.sources⟩).bind fun sources =>
      .pure { op with sources } fun h => ?_
    exact .rewritten (fun _ hdest => h.1.2.destination hdest) h.2
  next => exact .pure op And.right

theorem tracks_renameOperations (readsInputs : Bool) {ops : List Operation} :
    Tracks rule src r (rule.Stands scope ∧ ∀ op ∈ ops, rule.Admits op)
      (fun renamed => (∀ op ∈ renamed.1, rule.Admits op) ∧ rule.Stands renamed.2)
      (Prod.map (List.map r.operation) r.scope) (renameOperations vars readsInputs scope ops)
      (renameOperations vars readsInputs (r.scope scope) (ops.map r.operation)) := by
  induction ops generalizing scope with
  | nil => exact .pure ([], scope) fun h => ⟨by simp, h.1⟩
  | cons op rest ih =>
    rw [forall_mem_cons]
    refine ((tracks_renameOperation readsInputs).imp fun h => ⟨h.1, h.2.1⟩).bind fun first => ?_
    refine (ih.imp fun h => ⟨h.2.2, h.1.2.2⟩).bind fun others =>
      .pure (first.1 :: others.1, others.2) fun h => ?_
    exact ⟨forall_mem_cons.mpr ⟨h.1.2.1, h.2.1⟩, h.2.2⟩

theorem setOperations_eq_bind (b : Nat) (operations : List Operation) (state : Renaming) :
    setOperations b operations state =
      (state.graph.modify b fun block => { block with operations }) >>=
        fun graph => .ok ((), { state with graph }) := by
  rw [setOperations, Rename.run_get_bind]
  cases state.graph.modify b fun block => { block with operations } <;> rfl

theorem tracks_setOperations (b : Nat) {ops : List Operation} :
    Tracks rule src r (∀ op ∈ ops, rule.Admits op) (fun _ => True) id
      (setOperations b ops) (setOperations b (ops.map r.operation)) := by
  intro state last a hrun
  rw [setOperations_eq_bind] at hrun ⊢
  obtain ⟨graph, hgraph, hlast⟩ := of_bind hrun
  cases hlast
  have hgraph' : (r.graph state.graph).modify b (fun block =>
      { block with operations := ops.map r.operation }) = .ok (r.graph graph) := by
    refine r.modify_graph_eq_ok (fun _ => ?_) hgraph
    rfl
  obtain ⟨-, rfl⟩ := Graph.of_modify_eq_ok hgraph
  refine ⟨.refl _, fun h _ hstate => ⟨⟨?_, hstate.zeros, hstate.scopes⟩, trivial⟩, fun _ _ => ?_⟩
  · exact hstate.rewrites.modify b _ fun _ _ => h
  · exact bind_eq_ok.mpr ⟨_, hgraph', rfl⟩

theorem tracks_feedSuccessor (b succ : Nat) :
    Tracks rule src r (rule.Stands scope) (fun _ => True) id (feedSuccessor vars scope b succ)
      (feedSuccessor vars (r.scope scope) b succ) := by
  refine .get_bind fun state => .block_bind fun block hblock => ?_
  refine (Tracks.mapM fun op hop => (tracks_feedOperation b).imp fun h =>
    ⟨h.1, h.2.rewrites.obeyed hblock op hop⟩).bind fun ops => ?_
  exact (tracks_setOperations succ).imp And.right

theorem stands_scopeIn {scopes : Array Scope} (hscopes : ∀ scope ∈ scopes, rule.Stands scope)
    (tree : DominatorTree) (b : Nat) : rule.Stands (scopeIn tree scopes b) := by
  unfold scopeIn
  cases hscope : (tree.parent? b).bind fun parent => scopes[parent]? with
  | none => exact stands_nil
  | some scope =>
    obtain ⟨parent, -, hparent⟩ := Option.bind_eq_some_iff.mp hscope
    exact hscopes scope (Array.mem_of_getElem? hparent)

theorem scopeIn_map (tree : DominatorTree) (scopes : Array Scope) (b : Nat) :
    scopeIn tree (scopes.map r.scope) b = r.scope (scopeIn tree scopes b) := by
  unfold scopeIn
  cases tree.parent? b with
  | none => rfl
  | some parent =>
    simp only [Option.bind_some, Array.getElem?_map]
    cases scopes[parent]? <;> rfl

theorem tracks_renameBlock (tree : DominatorTree) (b : Nat) : Tracks rule src r True
    (fun _ => True) id (renameBlock vars tree b) (renameBlock vars tree b) := by
  refine .get_bind fun state => .block_bind fun block hblock => .get_bind fun state' => ?_
  have hscope : scopeIn tree (r.state state').scopes b = _ := scopeIn_map tree state'.scopes b
  unfold scopeIn at hscope
  dsimp only
  rw [hscope]
  refine ((tracks_renameOperations false).imp fun h => ⟨stands_scopeIn h.2.scopes tree b,
    h.1.2.rewrites.obeyed hblock⟩).bind fun renamed => ?_
  refine ((tracks_setOperations b).imp fun h => h.2.1).bind fun _ => ?_
  refine ((Tracks.forM (tracks_feedSuccessor b) block.successors).imp fun h => h.1.2.2).bind
    fun _ => ?_
  refine Tracks.modify (fun _ => rfl) (fun state h hstate => ⟨hstate.rewrites, hstate.zeros,
    fun other hother => ?_⟩) fun state => ?_
  · rcases Array.mem_or_eq_of_mem_setIfInBounds hother with hold | rfl
    · exact hstate.scopes other hold
    · exact h.1.1.2.2
  · exact congrArg (Renaming.mk _ _) (r.setIfInBounds_map state.scopes b renamed.2)

theorem tracks_renameUnreachable (b : Nat) : Tracks rule src r True (fun _ => True) id
    (renameUnreachable vars b) (renameUnreachable vars b) := by
  refine .get_bind fun state => .block_bind fun block hblock => ?_
  refine ((tracks_renameOperations true).imp fun h => ⟨stands_nil,
    h.2.rewrites.obeyed hblock⟩).bind fun renamed => ?_
  exact (tracks_setOperations b).imp fun h => h.2.1

variable (rule src r) in
theorem tracks_renameGraph (tree : DominatorTree) : Tracks rule src r True (fun _ => True) id
    (renameGraph vars tree) (renameGraph vars tree) :=
  (Tracks.forM (tracks_renameBlock tree) _).bind fun _ =>
    (Tracks.forM tracks_renameUnreachable _).imp fun _ => trivial

/-! ## Construction -/

theorem rewrites_insertPhis {more : List GuestVariable} (hgraph : rule.Rewrites src graph)
    (hmore : ∀ var ∈ more, var ∈ vars) (tree : DominatorTree) :
    rule.Rewrites src (insertPhis graph more tree).1 := by
  rw [insertPhis_fst]
  induction more generalizing graph with
  | nil => exact hgraph
  | cons var rest ih =>
    obtain ⟨hvar, hrest⟩ := forall_mem_cons.mp hmore
    refine ih ?_ hrest
    unfold placePhis
    dsimp only
    generalize phiBlocks graph tree var.register = blocks
    induction blocks generalizing graph with
    | nil => exact hgraph
    | cons b blocks ih =>
      rw [foldl_cons]
      refine ih (hgraph.modify b (fun block => emptyPhi var block.predecessors :: block.operations)
        fun block hblock op hop => ?_)
      rcases mem_cons.mp hop with rfl | hop
      · rintro opnd hopnd
        rcases mem_operands_iff.mp hopnd with hdest | hsrc
        · cases hdest
          exact rule.register var hvar
        · obtain ⟨input, hinput, rfl⟩ := mem_map.mp hsrc
          obtain ⟨p, -, rfl⟩ := mem_map.mp hinput
          exact rule.register var hvar
      · exact hgraph.obeyed hblock op hop

theorem of_construct_eq_ok (hbuild : construct graph = .ok result) :
    ∃ vars, GuestVariable.collect graph = .ok vars ∧ (vars = [] ∧ result = graph ∨
      vars ≠ [] ∧ ∃ state, renameGraph vars (.ofGraph graph)
          (startOf (insertPhis graph vars (.ofGraph graph)).1) = .ok ((), state) ∧
        result = state.graph.insertZeroInits (vars.filterMap fun var =>
          (state.zeros.lookup var.register).map fun id => (id, var.type))) := by
  obtain ⟨vars, hvars, hbuild⟩ := of_bind hbuild
  refine ⟨vars, of_liftM_eq_ok hvars, ?_⟩
  split at hbuild
  next hempty =>
    cases hbuild
    exact .inl ⟨isEmpty_iff.mp hempty, rfl⟩
  next hempty =>
    obtain ⟨⟨⟨⟩, state⟩, hrun, hresult⟩ := of_bind hbuild
    cases hresult
    exact .inr ⟨fun h => hempty (isEmpty_iff.mpr h), state, liftM_eq_ok hrun, rfl⟩

variable (rule) in
/-- Construction leaves the edges alone and continues the table, and its result obeys every
rule that the graph obeys. -/
theorem construct_rewrites (hvars : GuestVariable.collect graph = .ok vars)
    (hbuild : construct graph = .ok result) : graph.locals.Extends result.locals ∧
      (result.locals.Extends final → rule.Obeyed graph → rule.Rewrites graph result) := by
  obtain ⟨known, hknown, hcases⟩ := of_construct_eq_ok hbuild
  obtain rfl := Except.ok.inj (hknown.symm.trans hvars)
  rcases hcases with ⟨-, rfl⟩ | ⟨-, state, hrun, rfl⟩
  · exact ⟨.refl _, fun _ hgraph => ⟨.refl _, hgraph⟩⟩
  · obtain ⟨hext, hkeeps, -⟩ := tracks_renameGraph rule graph ⟨0, graph.locals, id, by simp⟩ _ hrun
    rw [startOf, locals_insertPhis] at hext
    refine ⟨hext, fun hfinal hgraph => ?_⟩
    have hphis := rewrites_insertPhis ⟨.refl graph, hgraph⟩ (fun _ h => h)
      (DominatorTree.ofGraph graph)
    have hstart : Obeys rule graph (startOf (insertPhis graph known (.ofGraph graph)).1) :=
      ⟨hphis, stands_nil, fun scope hscope => Array.eq_of_mem_replicate hscope ▸ stands_nil⟩
    obtain ⟨hobeys, -⟩ := hkeeps trivial hfinal hstart
    refine hobeys.rewrites.insertZeroInits fun entry hentry => ?_
    obtain ⟨var, hvar, hlookup⟩ := mem_filterMap.mp hentry
    obtain ⟨id, hzero, rfl⟩ := Option.map_eq_some_iff.mp hlookup
    have hfind := GuestVariable.find?_eq_some (GuestVariable.collect_eq_ok hvars) hvar
    exact rule.named hfind (rule.register var hvar) (hobeys.zeros hzero)

/-! ## One local for each register -/

variable (rule) in
theorem stands_assign {more : List GuestVariable} {table : LocalTable}
    (hmore : ∀ var ∈ more, GuestVariable.find? vars var.register = some var)
    (hfinal : (GuestVariable.assign table more).2.Extends final) :
    ∀ entry ∈ (GuestVariable.assign table more).1,
      GuestVariable.find? vars entry.1.register = some entry.1 ∧
        rule.stands entry.1.register entry.2 := by
  induction more generalizing table with
  | nil => simp [GuestVariable.assign]
  | cons var rest ih =>
    rw [forall_mem_cons] at hmore
    refine forall_mem_cons.mpr ⟨⟨hmore.1, ?_⟩, ih hmore.2 hfinal⟩
    exact rule.fresh hmore.1 ((LocalTable.extends_assign rest _).trans hfinal)

section Assigned

variable {assigned : List (GuestVariable × Nat)}
  (hassign : ∀ entry ∈ assigned, GuestVariable.find? vars entry.1.register = some entry.1 ∧
    rule.stands entry.1.register entry.2)
include hassign

theorem fits_renameRegister (hfits : rule.fits opnd) :
    rule.fits (opnd.renameRegister assigned) := by
  unfold Operand.renameRegister
  split
  next reg type =>
    split
    next entry hentry =>
      obtain ⟨hfind, hstands⟩ := hassign entry (mem_of_find?_eq_some hentry)
      obtain rfl : entry.1.register = reg := by simpa using find?_some hentry
      exact rule.named hfind hfits hstands
    next => exact hfits
  next => exact hfits

theorem admits_renameRegisters (hop : rule.Admits op) :
    rule.Admits (op.renameRegisters assigned) := by
  refine .rewritten (fun opnd h => ?_) fun opnd h => ?_
  · obtain ⟨old, hold, rfl⟩ := Option.map_eq_some_iff.mp h
    exact fits_renameRegister hassign (hop.destination hold)
  · obtain ⟨old, hold, rfl⟩ := mem_map.mp h
    exact fits_renameRegister hassign (hop.sources old hold)

end Assigned

variable (rule) in
theorem renameRegisters_rewrites (hvars : GuestVariable.collect graph = .ok vars)
    (hrename : graph.renameRegisters = .ok result) : graph.locals.Extends result.locals ∧
      (result.locals.Extends final → rule.Obeyed graph → rule.Rewrites graph result) := by
  obtain ⟨known, hknown, hrest⟩ := of_bind hrename
  obtain rfl := Except.ok.inj (hknown.symm.trans hvars)
  split at hrest
  next =>
    cases hrest
    exact ⟨.refl _, fun _ hgraph => ⟨.refl graph, hgraph⟩⟩
  next =>
    cases hrest
    refine ⟨LocalTable.extends_assign known _, fun hfinal hgraph => ?_⟩
    have hassign := stands_assign rule (fun var =>
      GuestVariable.find?_eq_some (GuestVariable.collect_eq_ok hvars)) hfinal
    refine OperandRule.Rewrites.insertZeroInits ⟨⟨?_, fun {b block} hblock => ?_⟩,
      fun b block hblock op hop => ?_⟩ fun entry hentry => ?_
    · exact Array.size_map
    · exact ⟨{ block with operations := block.operations.map (Operation.renameRegisters _) },
        by rw [Array.getElem?_map, hblock]; rfl, rfl, rfl, rfl⟩
    · rw [Array.getElem?_map] at hblock
      obtain ⟨old, hold, rfl⟩ := Option.map_eq_some_iff.mp hblock
      obtain ⟨new, hnew, rfl⟩ := mem_map.mp hop
      exact admits_renameRegisters hassign (hgraph hold new hnew)
    · obtain ⟨pair, hpair, rfl⟩ := mem_map.mp hentry
      obtain ⟨hfind, hstands⟩ := hassign pair (mem_of_mem_filter hpair)
      exact rule.named hfind (rule.register pair.1 (mem_of_find?_eq_some hfind)) hstands

end SSA
end GraphJit
