import GraphJit.Proofs.PhiPlacement
import GraphJit.Proofs.Renaming

/-! # Renaming a graph

The blocks of the tree are renamed one after the other. What is known about the
blocks done so far does not change any more: their scopes, the range of numbers that
each of them took, and the phi inputs that they feed.
-/

namespace GraphJit.SSA

open GraphJit.Graph DominatorTree Dominance List

variable {vars : List GuestVariable}

theorem forall₂_reshapes_trans {first second third : List Operation}
    (hfirst : Forall₂ Reshapes first second) (hsecond : Forall₂ Reshapes second third) :
    Forall₂ Reshapes first third := by
  induction hfirst generalizing third with
  | nil =>
    cases hsecond
    exact .nil
  | cons hop _ ih =>
    cases hsecond with
    | cons hop' hrest => exact .cons (hop.trans hop') (ih hrest)

variable {op new : Operation} {b low high c parent : Nat} {scope zeros last : Scope}
  {tree : DominatorTree} {src : Graph} {block : Block} {operations ops : List Operation}
  {done : List Nat} {state : Renaming} {span : Nat → Nat × Nat} {scopes : Array Scope}
  {input : Nat × Operand}

/-- The same blocks with operations of the same shape. -/
structure Reshaped (first second : Graph) : Prop where
  size : second.size = first.size
  blocks : ∀ ⦃b : Nat⦄ ⦃block : Block⦄, first.blocks[b]? = some block →
    ∃ operations, second.blocks[b]? = some { block with operations } ∧
      Forall₂ Reshapes block.operations operations

namespace Reshaped

variable {first second third : Graph}

theorem refl (graph : Graph) : Reshaped graph graph :=
  ⟨rfl, fun _ block hblock => ⟨block.operations, hblock, forall₂_same.mpr fun op _ => .refl op⟩⟩

theorem trans (hfirst : Reshaped first second) (hsecond : Reshaped second third) :
    Reshaped first third := by
  refine ⟨hsecond.size.trans hfirst.size, fun b block hblock => ?_⟩
  obtain ⟨mid, hmiddle, hshapes⟩ := hfirst.blocks hblock
  obtain ⟨ops, hops, hshapes'⟩ := hsecond.blocks hmiddle
  exact ⟨ops, hops, forall₂_reshapes_trans hshapes hshapes'⟩

end Reshaped

theorem Readable.reshapes_mapInputs (hread : Readable vars op) (change : Nat → Operand → Operand) :
    Reshapes op (SSA.mapInputs change op) := by
  unfold SSA.mapInputs
  split
  next hphi => exact ⟨rfl, rfl, by simp [hread.labels hphi], rfl⟩
  next => exact .refl op

theorem reshapes_feedBlock (zeros scope : Scope) (b : Nat) (hread : ∀ op ∈ ops, Readable vars op) :
    Forall₂ Reshapes ops (ops.map (mapInputs (feedInput zeros scope b))) := by
  rw [forall₂_map_right_iff]
  exact forall₂_same.mpr fun op hop => (hread op hop).reshapes_mapInputs _

/-- What renaming one block keeps of the others. -/
theorem reshaped_renameIn {first second : Graph} (hfirst : Renamable vars first)
    (hblock : first.blocks[b]? = some block)
    (hshapes : Forall₂ Reshapes block.operations operations)
    (hread : ∀ op ∈ operations, Readable vars op)
    (hrewr : Rewrites (renameIn zeros scope b operations block.successors) first second) :
    Reshaped first second ∧ Renamable vars second := by
  have hown : ∀ {c : Nat} {old : Block}, first.blocks[c]? = some old →
      ∃ new, (if c = b then { old with operations } else old) = { old with operations := new } ∧
        Forall₂ Reshapes old.operations new ∧ ∀ op ∈ new, Readable vars op := by
    intro c old hold
    split
    next hc =>
      obtain rfl : old = block := Option.mem_unique hold (hc ▸ hblock)
      exact ⟨operations, rfl, hshapes, hread⟩
    next =>
      exact ⟨old.operations, rfl, forall₂_same.mpr fun op _ => .refl op, hfirst.readable hold⟩
  refine ⟨⟨hrewr.size, fun c old hold => ?_⟩, hrewr.renamable hfirst fun c old hold => ?_⟩
  · obtain ⟨new, heq, hnew, hread'⟩ := hown hold
    rw [hrewr.blocks, hold, Option.map_some, renameIn, heq]
    split
    next =>
      exact ⟨_, rfl, forall₂_reshapes_trans hnew (reshapes_feedBlock zeros scope b hread')⟩
    next => exact ⟨new, rfl, hnew⟩
  · obtain ⟨new, heq, -, hread'⟩ := hown hold
    rw [renameIn, heq]
    split
    next => exact readable_feedBlock zeros scope b hread'
    next => exact hread'

/-! ## The blocks done so far -/

/-- The scope at the end of a block. -/
def scopeOut (scopes : Array Scope) (b : Nat) : Scope := scopes[b]?.getD []

/-- A phi input is resolved once the block that it comes from is done. -/
def feedFrom (zeros : Scope) (out : Nat → Scope) (done : List Nat) (label : Nat)
    (src : Operand) : Operand :=
  if label ∈ done then resolve zeros (out label) src else src

/-- Phi inputs are labelled with predecessors. -/
def Labelled (graph : Graph) : Prop :=
  ∀ ⦃b : Nat⦄ ⦃block : Block⦄, graph.blocks[b]? = some block → ∀ op ∈ block.operations,
    op.isPhi → ∀ label ∈ op.labels, b ∈ graph.successors label

/-- What holds when some blocks of a graph are done. -/
structure RenamedUpTo (src : Graph) (tree : DominatorTree) (zeros : Scope)
    (span : Nat → Nat × Nat) (done : List Nat) (state : Renaming) : Prop where
  size : state.graph.size = src.size
  scopes : state.scopes.size = src.size
  floor : src.locals.count ≤ state.graph.locals.count
  cleared : Within src.locals.count state.graph.locals.count state.zeros
  distinct : Distinct state.zeros
  within : ∀ b, Within src.locals.count state.graph.locals.count (scopeOut state.scopes b)
  pending : ∀ ⦃b : Nat⦄ ⦃block : Block⦄, src.blocks[b]? = some block → b ∉ done →
    state.graph.blocks[b]? = some { block with
      operations := block.operations.map (mapInputs (feedFrom zeros (scopeOut state.scopes) done)) }
  renamed : ∀ ⦃b : Nat⦄ ⦃block : Block⦄, src.blocks[b]? = some block → b ∈ done →
    ∃ operations, state.graph.blocks[b]? = some { block with operations } ∧
      Renames zeros (span b).1 (span b).2 (scopeIn tree state.scopes b)
        (block.operations.map (mapInputs (feedFrom zeros (scopeOut state.scopes) done)))
        operations (scopeOut state.scopes b)
  fed : ∀ ⦃b : Nat⦄ ⦃block : Block⦄, src.blocks[b]? = some block → ∀ op ∈ block.operations,
    op.isPhi → ∀ input ∈ op.inputs, input.1 ∈ done →
      Resolved zeros (scopeOut state.scopes input.1) input.2
  spans : ∀ b ∈ done, src.locals.count ≤ (span b).1 ∧ (span b).2 ≤ state.graph.locals.count
  apart : ∀ b ∈ done, ∀ c ∈ done, b ≠ c → (span b).2 ≤ (span c).1 ∨ (span c).2 ≤ (span b).1

theorem mapInputs_congr {first second : Nat → Operand → Operand}
    (heq : op.isPhi → ∀ label ∈ op.labels, first label = second label) :
    mapInputs first op = mapInputs second op := by
  cases hphi : op.isPhi with
  | false => simp [mapInputs, hphi]
  | true =>
    rw [mapInputs_eq hphi, mapInputs_eq hphi, map_congr_left fun input hinput => ?_]
    exact congrFun (heq hphi input.1 (of_mem_zip hinput).1) input.2

/-- Phi inputs are not looked at in their own block. -/
theorem RenamesOne.mapInputs (hop : RenamesOne zeros low high scope op new last)
    (change : Nat → Operand → Operand) :
    RenamesOne zeros low high scope (mapInputs change op) (mapInputs change new) last := by
  have hphi : ∀ dest, SSA.mapInputs change
      { op with sources := readSources zeros scope op, destination := dest } =
      { SSA.mapInputs change op with
        sources := readSources zeros scope (SSA.mapInputs change op)
        destination := dest } := by
    intro dest
    cases h : op.isPhi with
    | false => simp_all [SSA.mapInputs, Operation.isPhi]
    | true => simp_all [SSA.mapInputs, Operation.isPhi, readSources]
  have hsame : (SSA.mapInputs change op).destination = op.destination := by
    unfold SSA.mapInputs
    split <;> rfl
  have hother : (SSA.mapInputs change op).isPhi = false →
      op.isPhi = false ∧ SSA.mapInputs change op = op := by
    unfold SSA.mapInputs
    split
    next h => exact fun h' => absurd (h'.symm.trans h) (by simp)
    next => exact fun h => ⟨h, rfl⟩
  cases hop with
  | keep hdest hsrcs =>
    rw [hphi, ← hsame]
    refine .keep (hsame ▸ hdest) fun h => ?_
    rw [(hother h).2]
    exact hsrcs (hother h).1
  | define hdest hlow hhigh hscope hzeros hsrcs =>
    rw [hphi]
    refine .define (hsame ▸ hdest) hlow hhigh hscope hzeros fun h => ?_
    rw [(hother h).2]
    exact hsrcs (hother h).1

theorem Renames.mapInputs {new : List Operation} (hren : Renames zeros low high scope ops new last)
    (change : Nat → Operand → Operand) :
    Renames zeros low high scope (ops.map (mapInputs change)) (new.map (mapInputs change)) last := by
  induction hren with
  | nil hle => exact .nil hle
  | cons hle hop _ ih => exact .cons hle (hop.mapInputs change) ih

theorem scopeIn_of_parent (hparent : tree.parent? b = some parent) (scopes : Array Scope) :
    scopeIn tree scopes b = scopeOut scopes parent := by
  rw [scopeIn, hparent]
  rfl

theorem scopeIn_of_root (hparent : tree.parent? b = none) (scopes : Array Scope) :
    scopeIn tree scopes b = [] := by
  rw [scopeIn, hparent]
  rfl

theorem RenamedUpTo.within_scopeIn (hprog : RenamedUpTo src tree zeros span done state) (b : Nat) :
    Within src.locals.count state.graph.locals.count (scopeIn tree state.scopes b) := by
  cases hparent : tree.parent? b with
  | none =>
    rw [scopeIn_of_root hparent]
    exact .nil
  | some parent =>
    rw [scopeIn_of_parent hparent]
    exact hprog.within parent

theorem scopeOut_setIfInBounds (hb : b < scopes.size) (scope : Scope) (c : Nat) :
    scopeOut (scopes.setIfInBounds b scope) c = if c = b then scope else scopeOut scopes c := by
  unfold scopeOut
  rw [Array.getElem?_setIfInBounds]
  by_cases hc : c = b
  · simp [hc, hb]
  · simp [hc, Ne.symm hc]

theorem scopeIn_setIfInBounds (hparent : tree.parent? c ≠ some b) (scope : Scope) :
    scopeIn tree (scopes.setIfInBounds b scope) c = scopeIn tree scopes c := by
  unfold scopeIn
  cases hup : tree.parent? c with
  | none => rfl
  | some parent =>
    have hne : b ≠ parent := fun h => hparent (h ▸ hup)
    simp [Array.getElem?_setIfInBounds, hne]

/-- The inputs of an operation in block `c` once block `b` is done as well. -/
theorem mapInputs_feedFrom (zeros : Scope) {out next : Nat → Scope} (hlab : Labelled src)
    (hb : b ∉ done) (hnext : ∀ label, next label = if label = b then scope else out label)
    (hblock : src.blocks[c]? = some block) (hop : op ∈ block.operations) :
    (if c ∈ src.successors b then
        mapInputs (feedInput zeros scope b) (mapInputs (feedFrom zeros out done) op)
      else mapInputs (feedFrom zeros out done) op) =
      mapInputs (feedFrom zeros next (done ++ [b])) op := by
  have hother : ∀ label, label ≠ b → feedFrom zeros out done label =
      feedFrom zeros next (done ++ [b]) label := by
    intro label hlabel
    funext input
    simp [feedFrom, hnext, hlabel]
  split
  next =>
    rw [mapInputs_mapInputs]
    refine mapInputs_congr fun _ label _ => ?_
    by_cases hlabel : label = b
    · subst hlabel
      funext input
      simp [feedFrom, feedInput, hnext, hb]
    · rw [← hother label hlabel]
      funext input
      simp [feedInput, hlabel]
  next hsucc =>
    refine mapInputs_congr fun hphi label hmem => hother label ?_
    rintro rfl
    exact hsucc (hlab hblock op hop hphi label hmem)

/-- The operations of block `c` once block `b` is done as well. -/
theorem map_feedFrom (zeros : Scope) {out next : Nat → Scope} (hlab : Labelled src)
    (hb : b ∉ done) (hnext : ∀ label, next label = if label = b then scope else out label)
    (hblock : src.blocks[c]? = some block) :
    (if c ∈ src.successors b then
        (block.operations.map (mapInputs (feedFrom zeros out done))).map
          (mapInputs (feedInput zeros scope b))
      else block.operations.map (mapInputs (feedFrom zeros out done))) =
      block.operations.map (mapInputs (feedFrom zeros next (done ++ [b]))) := by
  have hop := fun op (hop : op ∈ block.operations) =>
    mapInputs_feedFrom zeros hlab hb hnext hblock hop
  split
  next hc =>
    rw [map_map]
    exact map_congr_left fun op h => (if_pos hc).symm.trans (hop op h)
  next hc => exact map_congr_left fun op h => (if_neg hc).symm.trans (hop op h)

/-- A block stays renamed when the block `b` feeds it. -/
theorem Renames.feedFrom {out next : Nat → Scope} {first : Scope} {new : List Operation}
    (hren : Renames zeros low high first
      (block.operations.map (SSA.mapInputs (feedFrom zeros out done))) new last)
    (hlab : Labelled src) (hb : b ∉ done)
    (hnext : ∀ label, next label = if label = b then scope else out label)
    (hblock : src.blocks[c]? = some block) :
    Renames zeros low high first
      (block.operations.map (SSA.mapInputs (SSA.feedFrom zeros next (done ++ [b]))))
      (if c ∈ src.successors b then new.map (SSA.mapInputs (feedInput zeros scope b)) else new)
      last := by
  rw [← map_feedFrom zeros hlab hb hnext hblock]
  split
  next => exact hren.mapInputs _
  next => exact hren

theorem Renames.exists_phi {new : List Operation} (hren : Renames zeros low high scope ops new last)
    (hop : op ∈ ops) (hphi : op.isPhi) : ∃ other ∈ new, other.isPhi ∧ other.inputs = op.inputs := by
  induction hren with
  | nil => simp at hop
  | @cons _ _ _ _ _ _ first renamed _ _ _ hfirst _ ih =>
    rcases mem_cons.mp hop with rfl | hop
    · refine ⟨renamed, mem_cons_self, ?_⟩
      cases hfirst <;> exact ⟨hphi, by simp [Operation.inputs, readSources, hphi]⟩
    · obtain ⟨other, hother, hinputs⟩ := ih hop
      exact ⟨other, .tail _ hother, hinputs⟩

/-- An input that was fed has a local to stand for it. -/
theorem resolved_of_feedBlock
    (hsame : ∀ more, Extends zeros more → feedBlock zeros scope b block = feedBlock more scope b block)
    (hop : op ∈ block.operations) (hphi : op.isPhi) (hinput : input ∈ op.inputs)
    (hlabel : input.1 = b) : Resolved zeros scope input.2 := by
  refine resolved_of_forall fun more hmore => ?_
  have hops := congrArg Block.operations (hsame more hmore)
  have hone := map_inj_left.mp hops op hop
  simp only [mapInputs, hphi, if_true, Operation.mk.injEq, true_and, and_true,
    ← map_uncurry_zip_eq_zipWith, map_inj_left] at hone
  simpa [Function.uncurry, feedInput, hlabel] using hone input hinput

/-- A phi with its input from block `b`, as it stands when that block is renamed. -/
theorem RenamedUpTo.exists_phi {first : Scope} {old : Block}
    (hprog : RenamedUpTo src tree zeros span done state) (hren : Renames zeros low high first
      (block.operations.map (mapInputs (feedFrom zeros (scopeOut state.scopes) done)))
      operations scope) (hblock : src.blocks[b]? = some block) (hb : b ∉ done)
    (hold : src.blocks[c]? = some old) (hop : op ∈ old.operations) (hphi : op.isPhi)
    (hinput : input ∈ op.inputs) (hlabel : input.1 ∉ done) :
    ∃ now, state.graph.blocks[c]? = some now ∧
      ∃ other ∈ (if c = b then { now with operations } else now).operations,
        other.isPhi ∧ input ∈ other.inputs := by
  let fed := mapInputs (feedFrom zeros (scopeOut state.scopes) done) op
  have hphi' : fed.isPhi := (isPhi_mapInputs _ op).trans hphi
  have hkeep : feedFrom zeros (scopeOut state.scopes) done input.1 input.2 = input.2 :=
    if_neg hlabel
  have hmem : input ∈ fed.inputs := by
    rw [inputs_mapInputs hphi]
    exact mem_map.mpr ⟨input, hinput, by rw [hkeep]⟩
  have hfed : fed ∈ old.operations.map (mapInputs (feedFrom zeros (scopeOut state.scopes) done)) :=
    mem_map.mpr ⟨op, hop, rfl⟩
  by_cases hcb : c = b
  · subst hcb
    obtain rfl : old = block := Option.mem_unique hold hblock
    obtain ⟨other, hother, hphi'', hinputs⟩ := hren.exists_phi hfed hphi'
    exact ⟨_, hprog.pending hold hb, other, by simpa using hother, hphi'', hinputs ▸ hmem⟩
  · by_cases hdone : c ∈ done
    · obtain ⟨now, hnow, hspec⟩ := hprog.renamed hold hdone
      obtain ⟨other, hother, hphi'', hinputs⟩ := hspec.exists_phi hfed hphi'
      exact ⟨_, hnow, other, by simpa [hcb] using hother, hphi'', hinputs ▸ hmem⟩
    · exact ⟨_, hprog.pending hold hdone, fed, by simpa [hcb] using hfed, hphi', hmem⟩

/-- An input from block `b` has a local to stand for it once that block is done. -/
theorem RenamedUpTo.resolved {fresh first : Scope} {old : Block} {next : Graph}
    (hprog : RenamedUpTo src tree zeros span done state) (hlab : Labelled src)
    (hblock : src.blocks[b]? = some block) (hb : b ∉ done)
    (hrewriting : ∀ more, Extends fresh more →
      Rewrites (renameIn more scope b ops block.successors) state.graph next)
    (hkept : Extends fresh zeros) (hren : Renames zeros low high first
      (block.operations.map (mapInputs (feedFrom zeros (scopeOut state.scopes) done)))
      ops scope) (hold : src.blocks[c]? = some old) (hop : op ∈ old.operations)
    (hphi : op.isPhi) (hinput : input ∈ op.inputs) (hlabel : input.1 = b) :
    Resolved zeros scope input.2 := by
  have hsucc : c ∈ block.successors :=
    successors_eq hblock ▸ hlab hold op hop hphi b (hlabel ▸ (of_mem_zip hinput).1)
  obtain ⟨now, hnow, other, hother, hphi', hmem⟩ :=
    hprog.exists_phi hren hblock hb hold hop hphi hinput (hlabel ▸ hb)
  refine (resolved_of_feedBlock (fun more hmore => ?_) hother hphi' hmem hlabel).mono hkept
  have hfirst := (hrewriting fresh fun _ _ h => h).blocks c
  have hsecond := (hrewriting more hmore).blocks c
  rw [hnow, Option.map_some] at hfirst hsecond
  simpa only [renameIn, if_pos hsucc, Option.some.injEq] using hfirst.symm.trans hsecond

/-- One more block is done. -/
theorem RenamedUpTo.step {next final : Renaming}
    (hprog : RenamedUpTo src tree final.zeros span done state) (hlab : Labelled src)
    (hblock : src.blocks[b]? = some block) (hb : b ∉ done)
    (hparents : ∀ c ∈ b :: done, ∀ parent, tree.parent? c = some parent → parent ∈ done)
    (hlater : Later state next) (hbound : next.graph.locals.count ≤ twoPow 32)
    (hscopes : next.scopes = state.scopes.setIfInBounds b scope)
    (hrewriting : ∀ zeros, Extends next.zeros zeros →
      Rewrites (renameIn zeros scope b ops block.successors) state.graph next.graph)
    (hkept : Extends next.zeros final.zeros)
    (hren : Renames final.zeros state.graph.locals.count next.graph.locals.count
      (scopeIn tree state.scopes b)
      (block.operations.map (mapInputs (feedFrom final.zeros (scopeOut state.scopes) done)))
      ops scope) (hwithin : Within src.locals.count next.graph.locals.count scope) :
    RenamedUpTo src tree final.zeros
      (fun c => if c = b then (state.graph.locals.count, next.graph.locals.count) else span c)
      (done ++ [b]) next := by
  have hlt : b < state.scopes.size := hprog.scopes ▸ lt_size hblock
  have hout : ∀ c, scopeOut next.scopes c = if c = b then scope else scopeOut state.scopes c :=
    hscopes ▸ scopeOut_setIfInBounds hlt scope
  have hin : ∀ c ∈ b :: done, scopeIn tree next.scopes c = scopeIn tree state.scopes c :=
    fun c hc => hscopes ▸ scopeIn_setIfInBounds (fun h => hb (hparents c hc b h)) scope
  have hdone : ∀ {c}, c ∈ done ++ [b] → c ≠ b → c ∈ done := fun hc hne =>
    (mem_append.mp hc).resolve_right (by simpa using hne)
  have hrewr := hrewriting final.zeros hkept
  have hnext : ∀ {c : Nat} {old : Block} {now : List Operation},
      state.graph.blocks[c]? = some { old with operations := now } →
      next.graph.blocks[c]? = some { old with
        operations := if c ∈ src.successors b then
            (if c = b then ops else now).map (mapInputs (feedInput final.zeros scope b))
          else if c = b then ops else now } := by
    intro c old now hnow
    rw [hrewr.blocks, hnow, Option.map_some, renameIn, successors_eq hblock]
    split <;> split <;> rfl
  refine ⟨hrewr.size.trans hprog.size, ?_, hprog.floor.trans hlater.count,
    hlater.within hbound hprog.floor hprog.cleared,
    hlater.distinct hbound hprog.cleared hprog.distinct, ?_, ?_, ?_, ?_, ?_, ?_⟩
  · rw [hscopes, Array.size_setIfInBounds, hprog.scopes]
  · intro c
    rw [hout c]
    split
    next => exact hwithin
    next => exact (hprog.within c).mono hlater.count
  · intro c old hold hc
    simp only [mem_append, mem_singleton, not_or] at hc
    rw [hnext (hprog.pending hold hc.1), if_neg hc.2, map_feedFrom _ hlab hb hout hold]
  · intro c old hold hc
    by_cases hcb : c = b
    · subst hcb
      obtain rfl : old = block := Option.mem_unique hold hblock
      refine ⟨_, hnext (hprog.pending hold hb), ?_⟩
      simp only [if_true, hout, hin c mem_cons_self]
      exact hren.feedFrom hlab hb hout hold
    · obtain ⟨now, hnow, hspec⟩ := hprog.renamed hold (hdone hc hcb)
      refine ⟨_, hnext hnow, ?_⟩
      simp only [if_neg hcb, hout, hin c (.tail _ (hdone hc hcb))]
      exact hspec.feedFrom hlab hb hout hold
  · intro c old hold op hop hphi input hinput hlabel
    rw [hout]
    split
    next heq => exact hprog.resolved hlab hblock hb hrewriting hkept hren hold hop hphi hinput heq
    next hne => exact hprog.fed hold op hop hphi input hinput (hdone hlabel hne)
  · intro c hc
    split
    next => exact ⟨hprog.floor, Nat.le_refl _⟩
    next hcb =>
      obtain ⟨hlow, hhigh⟩ := hprog.spans c (hdone hc hcb)
      exact ⟨hlow, hhigh.trans hlater.count⟩
  · intro c hc d hd hne
    -- the new block took its numbers after all the others
    split <;> split
    next hcb hdb => exact absurd (hcb.trans hdb.symm) hne
    next hdb => exact .inr (hprog.spans d (hdone hd hdb)).2
    next hcb _ => exact .inl (hprog.spans c (hdone hc hcb)).2
    next hcb hdb => exact hprog.apart c (hdone hc hcb) d (hdone hd hdb) hne

/-- Renaming blocks in an order in which each follows the block above it. -/
theorem exists_renameBlocks (tree : DominatorTree) {rest : List Nat}
    (hstate : Renamable vars state.graph) (hrest : ∀ b ∈ rest, b < state.graph.size) :
    ∃ next, rest.forM (renameBlock vars tree) state = .ok ((), next) ∧ Later state next ∧
      Renamable vars next.graph ∧ Reshaped state.graph next.graph ∧
      ∀ src final done span, Labelled src → Later next final →
        final.graph.locals.count ≤ twoPow 32 → (done ++ rest).Nodup →
        (∀ before c after, done ++ rest = before ++ c :: after →
          ∀ parent, tree.parent? c = some parent → parent ∈ before) →
        RenamedUpTo src tree final.zeros span done state →
        ∃ spans, RenamedUpTo src tree final.zeros spans (done ++ rest) next := by
  induction rest generalizing state with
  | nil =>
    refine ⟨state, rfl, .refl state, hstate, .refl state.graph, ?_⟩
    intro src final done span _ _ _ _ _ hprog
    rw [append_nil]
    exact ⟨span, hprog⟩
  | cons b rest ih =>
    obtain ⟨block, hblock⟩ := exists_block (hrest b mem_cons_self)
    obtain ⟨mid, ops, scope, hone, hmiddle, hscopes, hshapes, hread, hrewr, hspec⟩ :=
      exists_renameBlock tree hstate hblock
    obtain ⟨hreshaped, hrenamable⟩ := reshaped_renameIn hstate hblock hshapes hread
      (hrewr mid.zeros fun _ _ h => h)
    obtain ⟨next, hall, hnext, hrenamable', hreshaped', hrun⟩ := ih hrenamable fun c hc =>
      hreshaped.size ▸ hrest c (.tail _ hc)
    refine ⟨next, (Rename.run_bind hone).trans hall, hmiddle.trans hnext, hrenamable',
      hreshaped.trans hreshaped', ?_⟩
    intro src final done span hlab hfinal hbound hnodup hparents hprog
    have hlast := hnext.trans hfinal
    have hb : b ∉ done := fun h => disjoint_of_nodup_append hnodup h mem_cons_self
    have hclosed : ∀ c ∈ b :: done, ∀ parent, tree.parent? c = some parent → parent ∈ done := by
      intro c hc parent hparent
      rcases mem_cons.mp hc with rfl | hc
      · exact hparents done c rest rfl parent hparent
      · obtain ⟨before, after, rfl⟩ := append_of_mem hc
        have := hparents before c (after ++ b :: rest) (by simp) parent hparent
        exact mem_append_left _ this
    obtain ⟨old, hold⟩ : ∃ old, src.blocks[b]? = some old :=
      exists_block (hprog.size ▸ lt_size hblock)
    have hpend := hprog.pending hold hb
    obtain rfl := Option.mem_unique hblock hpend
    obtain ⟨hren, hwithin⟩ := hspec final src.locals.count hlast hbound hprog.floor
      hprog.cleared (hprog.within_scopeIn b)
    have hstep := hprog.step hlab hold hb hclosed hmiddle (hlast.count.trans hbound)
      hscopes hrewr hlast.kept hren hwithin
    simpa using hrun src final (done ++ [b]) _ hlab hfinal hbound (by simpa using hnodup)
      (by simpa using hparents) hstep

theorem mapInputs_feedFrom_nil (hread : Readable vars op) (zeros : Scope) (out : Nat → Scope) :
    mapInputs (feedFrom zeros out []) op = op := by
  cases hphi : op.isPhi with
  | false => simp [mapInputs, hphi]
  | true =>
    have hkeep : Function.uncurry (feedFrom zeros out []) = Prod.snd := by
      funext input
      simp [Function.uncurry, feedFrom]
    rw [mapInputs_eq hphi, hkeep, Operation.inputs, map_snd_zip (hread.labels hphi).ge]

/-- The start of a renaming. -/
def startOf (src : Graph) : Renaming where
  graph := src
  scopes := Array.replicate src.size []

theorem renamedUpTo_nil (hsrc : Renamable vars src) (tree : DominatorTree) (zeros : Scope)
    (span : Nat → Nat × Nat) : RenamedUpTo src tree zeros span [] (startOf src) := by
  have hdist : Distinct [] := fun _ _ _ h => by cases h
  refine ⟨rfl, Array.size_replicate .., Nat.le_refl _, .nil, hdist, ?_, ?_, by simp, by simp,
    by simp, by simp⟩
  · intro b
    have hout : scopeOut (startOf src).scopes b = [] := by
      simp only [scopeOut, startOf, Array.getElem?_replicate]
      split <;> rfl
    exact hout ▸ .nil
  · intro b block hblock _
    have hops : block.operations.map
        (mapInputs (feedFrom zeros (scopeOut (startOf src).scopes) [])) = block.operations :=
      (map_congr_left fun op hop =>
        mapInputs_feedFrom_nil (hsrc.readable hblock op hop) _ _).trans (map_id _)
    rw [hops]
    exact hblock

theorem mem_before_of_sublist {before after : List Nat} (hnodup : (before ++ c :: after).Nodup)
    (hsub : [parent, c].Sublist (before ++ c :: after)) : parent ∈ before := by
  induction before with
  | nil =>
    have hc : c ∉ after := (nodup_cons.mp hnodup).1
    rcases cons_sublist_cons'.mp hsub with htail | ⟨-, htail⟩
    · exact absurd (htail.subset (by simp)) hc
    · exact absurd (htail.subset (by simp)) hc
  | cons x before ih =>
    rcases cons_sublist_cons'.mp hsub with htail | ⟨rfl, -⟩
    · exact .tail _ (ih (nodup_cons.mp hnodup).2 htail)
    · exact mem_cons_self

/-- Renaming a graph all of whose blocks are in the tree. -/
theorem exists_renameGraph {graph : Graph} (hdoms : Analyzed graph)
    (hreach : ∀ b < graph.size, graph.Reachable b) (hsize : src.size = graph.size)
    (hsrc : Renamable vars src) :
    ∃ next, renameGraph vars (ofGraph graph) (startOf src) = .ok ((), next) ∧
      Reshaped src next.graph ∧ src.locals.count ≤ next.graph.locals.count ∧
      (Labelled src → next.graph.locals.count ≤ twoPow 32 →
        ∃ span, RenamedUpTo src (ofGraph graph) next.zeros span (ofGraph graph).preorder next) := by
  have hpre := preorder_ofGraph hdoms
  have hinside : ∀ b ∈ (ofGraph graph).preorder, b < src.size := fun b hb =>
    hsize ▸ (hpre.mem_iff.mp hb).lt_size hdoms.mirrored hdoms.nonempty
  have hstart : Renamable vars (startOf src).graph := hsrc
  obtain ⟨next, hrun, hlater, -, hreshaped, hspec⟩ :=
    exists_renameBlocks (ofGraph graph) hstart hinside
  refine ⟨next, ?_, hreshaped, hlater.count, fun hlab hbound => ?_⟩
  · have hrest : ((List.range (ofGraph graph).parents.size).filter fun b =>
        !(ofGraph graph).isReachable b) = [] := by
      have hparents : (ofGraph graph).parents.size = graph.size := Array.size_map ..
      rw [filter_eq_nil_iff]
      intro b hb
      rw [mem_range, hparents] at hb
      simp [(isReachable_iff hdoms).mpr (hreach b hb)]
    rw [renameGraph, Rename.run_bind hrun, hrest]
    rfl
  · refine hspec src next [] (fun _ => (0, 0)) hlab (.refl next) hbound
      (by simpa using hpre.nodup) ?_ (renamedUpTo_nil hsrc _ _ _)
    intro before c after heq parent hparent
    rw [nil_append] at heq
    have hc : c ∈ (ofGraph graph).preorder := by simp [heq]
    have hne : c ≠ entry := by
      rintro rfl
      simp [parents_entry hdoms] at hparent
    rw [parents_of_ne hne] at hparent
    have hsub := hpre.parent_first hc hne hparent
    rw [heq] at hsub
    exact mem_before_of_sublist (heq ▸ hpre.nodup) hsub

theorem locals_insertPhis (graph : Graph) (vars : List GuestVariable) (tree : DominatorTree) :
    (insertPhis graph vars tree).1.locals = graph.locals := by
  rw [insertPhis_fst]
  induction vars generalizing graph with
  | nil => rfl
  | cons var rest ih => exact ih (placePhis tree graph var)

end GraphJit.SSA
