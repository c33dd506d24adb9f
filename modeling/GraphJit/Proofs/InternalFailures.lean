import GraphJit.Proofs.ConstructionVerifies
import GraphJit.Proofs.EditedGraphs
import GraphJit.Proofs.InternalErrors

/-! # Internal errors of a compilation

An internal error says that the compiler is at fault, not its input. The main statement:
a graph that was read from text and passed validation meets such an error only in static
single assignment mode, and only in the check that follows the construction. The check
finds nothing if the locals of the text have single definitions above all their uses. But
nothing refuses a text that writes a local twice, so such a text is taken for a mistake of
the compiler.
-/

namespace GraphJit

open GraphJit.Graph Dominance SSA Validate

variable {α β : Type}

/-- The outcome is an internal error. -/
def FailsInternally (outcome : Outcome α) (cause : CompileError) : Prop :=
  outcome = .error (.error cause) ∧ cause.isInternal = true

theorem Sane.not_failsInternally {outcome : Outcome α} {cause : CompileError} {missing : Nat → Prop}
    (hsane : Sane missing outcome) : ¬FailsInternally outcome cause := by
  rintro ⟨hout, hinternal⟩
  have hexternal := (hsane _ hout).2.1
  rw [hinternal] at hexternal
  cases hexternal

theorem failsInternally_bind_iff {first : Outcome α} {next : α → Outcome β} {cause : CompileError} :
    FailsInternally (first >>= next) cause ↔
      FailsInternally first cause ∨ ∃ a, first = .ok a ∧ FailsInternally (next a) cause := by
  cases first <;> simp [FailsInternally, bind, Except.bind]

/-! ## The check of static single assignment form -/

/-- Faults and internal errors. -/
def Failure.IsInternal : Failure → Prop
  | .fault _ => True
  | .error cause => cause.isInternal = true

namespace SSA

theorem failsOnly_violation (cause : SsaViolation) :
    FailsOnly Failure.IsInternal (violation cause : Outcome α) :=
  failsOnly_error rfl

theorem failsOnly_noteDefinition (b : Nat) (defs : Definitions) (op : Operation) (pos : Nat) :
    FailsOnly Failure.IsInternal (noteDefinition b defs op pos) := by
  unfold noteDefinition
  split
  next => exact failsOnly_violation _
  next =>
    split
    · exact (failsOnly_violation _).bind fun _ _ => failsOnly_ok _
    · exact failsOnly_ok _
  next => exact failsOnly_ok _

theorem failsOnly_checkSource (tree : DominatorTree) (defs : Definitions) (b pos : Nat)
    (op : Operation) (src : Operand) (k : Nat) :
    FailsOnly Failure.IsInternal (checkSource tree defs b pos op src k) := by
  unfold checkSource
  split
  next => exact failsOnly_violation _
  next =>
    split
    next => exact failsOnly_violation _
    next defn _ =>
      refine FailsOnly.bind ?_ fun _ _ => .ite (failsOnly_violation _) (failsOnly_ok _)
      cases reaches tree b pos op k defn with
      | ok reached => exact failsOnly_ok _
      | error fault => exact failsOnly_error trivial
  next => exact failsOnly_ok _

theorem failsOnly_checkOperation (tree : DominatorTree) (defs : Definitions) (block : Block)
    (op : Operation) (pos : Nat) :
    FailsOnly Failure.IsInternal (checkOperation tree defs block op pos) := by
  have hsrcs : FailsOnly Failure.IsInternal (op.sources.zipIdx.forM fun input =>
      checkSource tree defs block.index pos op input.1 input.2) :=
    .forM fun input _ => failsOnly_checkSource tree defs _ pos op input.1 input.2
  exact .ite ((failsOnly_violation _).bind fun _ _ => hsrcs) hsrcs

/-- The check has no other errors. -/
theorem failsOnly_verify (graph : Graph) : FailsOnly Failure.IsInternal (verify graph) := by
  unfold verify
  refine FailsOnly.bind ?_ fun defs _ => ?_
  · exact .foldlM fun found block _ => .foldlM fun found site _ =>
      failsOnly_noteDefinition block.index found site.1 site.2
  · exact .forM fun block _ => .forM fun site _ =>
      failsOnly_checkOperation _ defs block site.1 site.2

end SSA

/-! ## The passes -/

section Passes

variable {graph : Graph} {opts : Options} {sig : Signature}

/-- Errors that are not about the compiler itself. -/
abbrev External (result : Except CompileError α) : Prop :=
  FailsOnly (fun cause => (Failure.error cause).IsSane fun _ => True) result

theorem External.sane {result : Except CompileError α} (hexternal : External result) :
    Sane (fun _ => True) (liftM result : Outcome α) := by
  cases result with
  | ok a => exact failsOnly_ok a
  | error cause => exact failsOnly_error (hexternal cause rfl)

theorem external_collect (graph : Graph) : External (GuestVariable.collect graph) := by
  intro cause hvars
  obtain ⟨reg, known, used, rfl, -⟩ := GuestVariable.collect_eq_error hvars
  exact ⟨rfl, rfl, fun _ _ => trivial⟩

theorem external_renameRegisters (graph : Graph) : External graph.renameRegisters :=
  (external_collect graph).bind fun _ _ => .ite (failsOnly_ok _) (failsOnly_ok _)

theorem external_ofCounts (conv : Convention) (graph : Graph) (counts : Array Nat) :
    External (Allocation.ofCounts none conv graph counts) := by
  refine FailsOnly.bind (.foldlM fun progress id _ => ?_) fun _ _ => failsOnly_ok _
  split
  next type _ =>
    obtain ⟨next, hplace⟩ := Allocation.exists_place none progress id type
    exact hplace ▸ failsOnly_ok next
  next => exact failsOnly_error ⟨rfl, rfl, fun _ _ => trivial⟩

theorem sane_analyzed (hvalid : graph.validate sig = .ok ()) :
    Sane (fun _ => True) (graph.analyzed sig) := by
  unfold Graph.analyzed Graph.prepare
  rw [hvalid]
  exact ((sane_fault _).bind fun _ _ => failsOnly_ok _).bind fun _ _ => sane_fault _

theorem sane_construct (graph : Graph) : Sane (fun _ => True) (construct graph) :=
  (external_collect graph).sane.bind fun _ _ => .ite (failsOnly_ok _)
    ((sane_fault _).bind fun _ _ => failsOnly_ok _)

/-- Only the check of the constructed form has internal errors. -/
theorem failsInternally_intoLocals_iff {cause : CompileError} :
    FailsInternally (graph.intoLocals opts).outcome cause ↔ opts.ssa = true ∧
      ∃ constructed, construct graph = .ok constructed ∧
        verify constructed = .error (.error cause) := by
  unfold Graph.intoLocals
  cases opts.ssa with
  | false =>
    refine iff_of_false (external_renameRegisters graph).sane.not_failsInternally ?_
    rintro ⟨⟨⟩, -⟩
  | true =>
    change FailsInternally (construct graph >>= fun constructed =>
      verify constructed >>= fun _ => pure constructed) cause ↔ _
    rw [failsInternally_bind_iff, or_iff_right (sane_construct graph).not_failsInternally, eq_self,
      true_and]
    refine exists_congr fun constructed => and_congr_right fun _ => ?_
    have hrest : ¬∃ a, verify constructed = .ok a ∧
        FailsInternally (pure constructed : Outcome Graph) cause := by
      rintro ⟨-, -, hfails⟩
      have hsane : Sane (fun _ => True) (pure constructed : Outcome Graph) := failsOnly_ok _
      exact hsane.not_failsInternally hfails
    rw [failsInternally_bind_iff, or_iff_left hrest]
    exact ⟨And.left, fun hverify => ⟨hverify, failsOnly_verify constructed _ hverify⟩⟩

theorem sameEdges_intoLocals {renamed : Graph}
    (hlocals : (graph.intoLocals opts).outcome = .ok renamed) : SameEdges graph renamed :=
  (of_intoLocals hlocals).elim sameEdges_construct sameEdges_renameRegisters

/-- What follows has no internal errors, since it keeps every edge inside the graph. -/
theorem sane_afterLocals (hlinked : graph.Linked) (opts : Options) (sig : Signature) :
    Sane (fun _ => True) (graph.withoutPhis >>= fun lowered =>
      Allocation.greedy none opts.convention lowered >>= fun alloc =>
        lowered.generate opts alloc sig.arguments) := by
  refine FailsOnly.bind ((sane_fault _).bind fun _ _ => failsOnly_ok _) fun lowered hlower => ?_
  obtain ⟨⟨other, splits⟩, hdecon, hresult⟩ := of_bind hlower
  cases hresult
  obtain ⟨hother, -⟩ := linked_deconstruct hlinked (liftM_eq_ok hdecon)
  refine FailsOnly.bind ((sane_fault _).bind fun counts _ => (external_ofCounts _ other counts).sane)
    fun alloc _ => ?_
  exact sane_generate _ hother.indexed (fun a b => hother.mirrored.lt_size_of_successor) _ _
    fun _ _ _ _ _ _ _ => trivial

theorem of_lowered {lowered : Graph} (hlinked : graph.Linked)
    (hlower : graph.lowered opts sig = .ok lowered) :
    lowered.Linked ∧ 0 < lowered.size := by
  obtain ⟨analyzed, hanalyzed, hrest⟩ := of_bind hlower
  obtain ⟨-, -, -, hprep⟩ := of_analyzed hlinked.mirrored hlinked.indexed hanalyzed
  obtain ⟨renamed, hlocals, hrest⟩ := of_bind hrest
  obtain ⟨⟨result, splits⟩, hdecon, hresult⟩ := of_bind hrest
  cases hresult
  have hsame := sameEdges_intoLocals hlocals
  obtain ⟨hresult, hle⟩ := linked_deconstruct
    (hsame.linked ⟨hprep.analyzed.indexed, hprep.analyzed.mirrored⟩)
    (liftM_eq_ok hdecon)
  exact ⟨hresult, hprep.analyzed.nonempty.trans_le (hsame.size ▸ hle)⟩

/-- Of all passes only the one that replaces registers has internal errors. -/
theorem failsInternally_compile_iff (hmirror : graph.Mirrored) (hidx : graph.Indexed)
    (hvalid : graph.validate sig = .ok ()) {cause : CompileError} :
    FailsInternally (graph.compile opts sig).outcome cause ↔
      ∃ analyzed, graph.analyzed sig = .ok analyzed ∧
        FailsInternally (analyzed.intoLocals opts).outcome cause := by
  rw [outcome_compile, Graph.lowered]
  simp only [bind_assoc]
  rw [failsInternally_bind_iff, or_iff_right (sane_analyzed hvalid).not_failsInternally]
  refine exists_congr fun analyzed => and_congr_right fun hanalyzed => ?_
  obtain ⟨-, -, -, hprep⟩ := of_analyzed hmirror hidx hanalyzed
  rw [failsInternally_bind_iff, or_iff_left]
  rintro ⟨renamed, hlocals, hfails⟩
  have hlinked : renamed.Linked := (sameEdges_intoLocals hlocals).linked
      ⟨hprep.analyzed.indexed, hprep.analyzed.mirrored⟩
  exact (sane_afterLocals hlinked opts sig).not_failsInternally hfails

end Passes

/-- Internal errors of a validated graph are violations of static single assignment form that
are found right after its construction. There are none if the locals of the graph are in that
form to begin with, and the numbers of locals suffice. -/
theorem compile_internal_iff {text : String} {graph : Graph} {sig : Signature}
    (hparse : Graph.parse text = .ok graph) (hvalid : graph.validate sig = .ok ())
    (opts : Options) :
    (∀ cause, (graph.compile opts sig).outcome = .error (.error cause) ∧
        cause.isInternal = true ↔
      opts.ssa = true ∧ ∃ analyzed constructed, graph.analyzed sig = .ok analyzed ∧
        construct analyzed = .ok constructed ∧ verify constructed = .error (.error cause)) ∧
    ∀ analyzed, graph.analyzed sig = .ok analyzed → Unconstructed analyzed →
      SingleAssignment analyzed →
      (∀ constructed, construct analyzed = .ok constructed → constructed.locals.count ≤ 2 ^ 32) →
      ∀ cause, (graph.compile opts sig).outcome = .error (.error cause) →
        cause.isInternal = false := by
  obtain ⟨hmirror, hidx⟩ := mirrored_and_indexed_of_parse hparse
  have hiff (cause : CompileError) :
      FailsInternally (graph.compile opts sig).outcome cause ↔ _ :=
    failsInternally_compile_iff hmirror hidx hvalid
  simp only [failsInternally_intoLocals_iff] at hiff
  constructor
  · intro cause
    refine (hiff cause).trans ⟨?_, ?_⟩
    · rintro ⟨analyzed, hanalyzed, hssa, constructed, hconstruct, hverify⟩
      exact ⟨hssa, analyzed, constructed, hanalyzed, hconstruct, hverify⟩
    · rintro ⟨hssa, analyzed, constructed, hanalyzed, hconstruct, hverify⟩
      exact ⟨analyzed, hanalyzed, hssa, constructed, hconstruct, hverify⟩
  · intro analyzed hanalyzed hfresh hassigned hbound cause hcause
    by_contra hinternal
    obtain ⟨other, hother, -, constructed, hconstruct, hverify⟩ :=
      (hiff cause).mp ⟨hcause, by simpa using hinternal⟩
    obtain rfl := Except.ok.inj (hanalyzed.symm.trans hother)
    obtain ⟨-, -, -, hprep⟩ := of_analyzed hmirror hidx hanalyzed
    obtain ⟨hverified, -⟩ := verify_of_construct hprep hfresh hassigned hconstruct
      (hbound constructed hconstruct)
    rw [hverified] at hverify
    cases hverify

def countdownText : String :=
  "block 0 -> 1\n  l0:i64 = copy 2:i64\n  r0:i64 = copy 6:i64\n  br\n" ++
  "block 1 -> 2, 1\n  r0:i64 = sub r0:i64, l0:i64\n  br_if.ne r0:i64, r1:i64\n" ++
  "block 2\n  ret r0:i64\n"

theorem compile_internal_iff_countdown : Graph.parse countdownText = .ok countdown ∧
      countdown.validate ⟨[], some .i64⟩ = .ok () ∧ Unconstructed analyzedCountdown ∧
      SingleAssignment analyzedCountdown ∧
      ∀ cause, (countdown.compile {} ⟨[], some .i64⟩).outcome = .error (.error cause) →
        cause.isInternal = false := by
  have hparse : Graph.parse countdownText = .ok countdown := by decide +kernel
  have hvalid : countdown.validate ⟨[], some .i64⟩ = .ok () := by cbv
  have hanalyzed : countdown.analyzed ⟨[], some .i64⟩ = .ok analyzedCountdown := by cbv
  refine ⟨hparse, hvalid, analyzedCountdown_unconstructed, analyzedCountdown_singleAssignment, ?_⟩
  refine (compile_internal_iff hparse hvalid {}).2 analyzedCountdown hanalyzed
    analyzedCountdown_unconstructed analyzedCountdown_singleAssignment fun constructed hok => ?_
  obtain rfl := Except.ok.inj (construct_countdown.symm.trans hok)
  decide

/-- A loop that counts its argument down in place. -/
def factorialText : String :=
  "# factorial\nblock 0 -> 1\n  l0:i64 = load_arg 0\n  r1:i64 = copy 1:i64\n" ++
  "block 1 -> 3, 2\n  br_if.le l0:i64, 1:i64\n" ++
  "block 2 -> 1\n  r1:i64 = mul r1:i64, l0:i64\n  l0:i64 = sub l0:i64, 1:i64\n  br\n" ++
  "block 3\n  ret r1:i64\n"

/-- The loop, and the loop with what the analysis finds out. -/
def factorialGraph (annotated : Bool) : Graph where
  blocks := #[
    { index := 0
      operations := [.compute (.loadArgument 0) (.localVar 0 .i64) [],
        .copy (.guest 1) (.constant 1 .i64)]
      successors := [1] },
    { index := 1
      operations := [
        .branchIf .le (.localVar 0 .i64) (.constant 1 .i64)]
      successors := [3, 2]
      predecessors := [0, 2]
      immediateDominator := if annotated then some 0 else none
      frontier := if annotated then [1] else [] },
    { index := 2
      operations := [
        .compute .mul (.guest 1)
          [.guest 1, .localVar 0 .i64],
        .compute .sub (.localVar 0 .i64) [.localVar 0 .i64, .constant 1 .i64],
        .branch]
      successors := [1]
      predecessors := [1]
      immediateDominator := if annotated then some 1 else none
      frontier := if annotated then [1] else [] },
    { index := 3
      operations := [.ret (.guest 1)]
      predecessors := [1]
      immediateDominator := if annotated then some 1 else none }]
  locals := ⟨#[some .i64]⟩

/-- The text passes validation, and writes a local twice. -/
theorem compile_factorialText_internal : Graph.parse factorialText = .ok (factorialGraph false) ∧
      (factorialGraph false).validate ⟨[.i64], some .i64⟩ = .ok () ∧
      ((factorialGraph false).compile {} ⟨[.i64], some .i64⟩).outcome =
        .error (.error (.ssaViolation (.redefined 0))) ∧
      (CompileError.ssaViolation (.redefined 0)).isInternal = true := by
  refine ⟨by decide +kernel, by cbv, ?_, rfl⟩
  have hanalyzed : (factorialGraph false).analyzed ⟨[.i64], some .i64⟩ =
      .ok (factorialGraph true) := by cbv
  have hlocals : ((factorialGraph true).intoLocals {}).outcome =
      .error (.error (.ssaViolation (.redefined 0))) := by decide +kernel
  rw [outcome_compile, lowered_eq hanalyzed, hlocals]
  rfl

end GraphJit
