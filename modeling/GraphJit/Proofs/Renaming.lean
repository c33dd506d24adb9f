import GraphJit.Proofs.GuestVariables
import GraphJit.Proofs.Links
import GraphJit.SSA.Rename
import Mathlib.Data.Nat.Basic
import Mathlib.Order.Basic

/-! # Renaming one block

What the renaming puts in the place of an operand depends on the scope alone once the
cleared locals of the whole run are known. Every new local is numbered above those
that are there, so the renamed operations of a block are described by the scope they
start with and the range of numbers they take.
-/

namespace GraphJit.SSA

open GraphJit.Graph List

/-! ## Runs of the renaming -/

namespace Rename

variable {α β : Type}

theorem run_bind {action : Rename α} {next : α → Rename β} {state mid : Renaming} {a : α}
    (haction : action state = .ok (a, mid)) : (action >>= next) state = next a mid := by
  change (action state >>= fun result => next result.1 result.2) = _
  rw [haction]
  rfl

theorem run_liftM {result : Except Fault α} {a : α} (hresult : result = .ok a) (state : Renaming) :
    (liftM result : Rename α) state = .ok (a, state) := by
  rw [hresult]
  rfl

theorem run_get_bind (next : Renaming → Rename β) (state : Renaming) :
    (get >>= next) state = next state state :=
  rfl

end Rename

/-- Every entry of a scope is found in another one. -/
def Extends (first second : Scope) : Prop :=
  ∀ ⦃reg id⦄, first.lookup reg = some id → second.lookup reg = some id

/-- The numbers in a scope lie in a range. -/
def Within (low high : Nat) (scope : Scope) : Prop :=
  ∀ ⦃reg id⦄, scope.lookup reg = some id → low ≤ id ∧ id < high

variable {op : Operation} {scope zeros : Scope} {opnd : Operand} {state : Renaming}
  {low high top b : Nat} {reg : GuestRegister} {ops : List Operation} {block : Block}

theorem Within.nil : Within low high [] := fun _ _ h => by cases h

theorem Within.mono (hwithin : Within low high scope) (hle : high ≤ top) : Within low top scope :=
  fun _ _ hid => ⟨(hwithin hid).1, (hwithin hid).2.trans_le hle⟩

/-- Different registers have different locals. -/
def Distinct (scope : Scope) : Prop :=
  ∀ ⦃first second id⦄, scope.lookup first = some id → scope.lookup second = some id → first = second

theorem lookup_cons (reg other : GuestRegister) (id : Nat) (scope : Scope) :
    List.lookup other ((reg, id) :: scope) =
      if other = reg then some id else scope.lookup other := by
  by_cases h : other = reg
  · simp [h]
  · simp [h, List.lookup_cons, beq_false_of_ne h]

/-- How the tables of a renaming grow. Numbers are words of 32 bits, so that new ones are
new only below that bound. -/
structure Later (first second : Renaming) : Prop where
  count : first.graph.locals.count ≤ second.graph.locals.count
  kept : Extends first.zeros second.zeros
  fresh : second.graph.locals.count ≤ twoPow 32 → ∀ ⦃reg id⦄,
    second.zeros.lookup reg = some id → first.zeros.lookup reg = some id ∨
      first.graph.locals.count ≤ id ∧ id < second.graph.locals.count
  distinct : second.graph.locals.count ≤ twoPow 32 → ∀ ⦃low⦄,
    Within low first.graph.locals.count first.zeros → Distinct first.zeros → Distinct second.zeros

namespace Later

variable {first second third : Renaming}

theorem of_eq (hlocals : second.graph.locals = first.graph.locals)
    (hzeros : second.zeros = first.zeros) : Later first second :=
  ⟨hlocals ▸ Nat.le_refl _, hzeros ▸ fun _ _ h => h, hzeros ▸ fun _ _ _ h => .inl h,
    hzeros ▸ fun _ _ _ h => h⟩

theorem refl (state : Renaming) : Later state state := of_eq rfl rfl

theorem within (hlater : Later first second) (hbound : second.graph.locals.count ≤ twoPow 32)
    (hlow : low ≤ first.graph.locals.count)
    (hwithin : Within low first.graph.locals.count first.zeros) :
    Within low second.graph.locals.count second.zeros := by
  intro reg id hid
  rcases hlater.fresh hbound hid with hid | hid
  · exact ⟨(hwithin hid).1, (hwithin hid).2.trans_le hlater.count⟩
  · exact ⟨hlow.trans hid.1, hid.2⟩

theorem trans (hfirst : Later first second) (hsecond : Later second third) : Later first third := by
  refine ⟨hfirst.count.trans hsecond.count, fun _ _ h => hsecond.kept (hfirst.kept h), ?_, ?_⟩
  · intro hbound reg id hid
    rcases hsecond.fresh hbound hid with hid | hid
    · exact (hfirst.fresh (hsecond.count.trans hbound) hid).imp_right fun h =>
        ⟨h.1, h.2.trans_le hsecond.count⟩
    · exact .inr ⟨hfirst.count.trans hid.1, hid.2⟩
  · intro hbound low hwithin hdist
    have hmiddle := hsecond.count.trans hbound
    have hzero : Within 0 first.graph.locals.count first.zeros :=
      fun _ _ h => ⟨Nat.zero_le _, (hwithin h).2⟩
    exact hsecond.distinct hbound (hfirst.within hmiddle (Nat.zero_le _) hzero)
      (hfirst.distinct hmiddle hwithin hdist)

end Later

/-- Only the tables of locals have changed. -/
structure Allocates (first second : Renaming) : Prop where
  later : Later first second
  blocks : second.graph.blocks = first.graph.blocks
  scopes : second.scopes = first.scopes

namespace Allocates

variable {first second third : Renaming}

theorem refl (state : Renaming) : Allocates state state := ⟨.refl state, rfl, rfl⟩

theorem trans (hfirst : Allocates first second) (hsecond : Allocates second third) :
    Allocates first third :=
  ⟨hfirst.later.trans hsecond.later, hsecond.blocks.trans hfirst.blocks,
    hsecond.scopes.trans hfirst.scopes⟩

end Allocates

theorem exists_freshLocal (var : GuestVariable) (state : Renaming) :
    ∃ next, freshLocal var state = .ok (state.graph.locals.count % twoPow 32, next) ∧
      Allocates state next ∧ next.zeros = state.zeros ∧
      next.graph.locals.count = state.graph.locals.count + 1 := by
  have hcount : LocalTable.count ⟨state.graph.locals.types.push (some var.type)⟩ =
      state.graph.locals.count + 1 := Array.size_push ..
  refine ⟨_, rfl, ⟨⟨?_, fun _ _ h => h, fun _ _ _ h => .inl h, fun _ _ _ h => h⟩, rfl, rfl⟩,
    rfl, hcount⟩
  exact hcount ▸ Nat.le_succ _

/-- The cleared local of a variable is the same from then on. -/
theorem exists_zeroLocal (var : GuestVariable) (state : Renaming) :
    ∃ id next, zeroLocal var state = .ok (id, next) ∧ Allocates state next ∧
      next.zeros.lookup var.register = some id := by
  cases hlookup : state.zeros.lookup var.register with
  | some id =>
    refine ⟨id, state, ?_, .refl state, hlookup⟩
    rw [zeroLocal, Rename.run_get_bind]
    simp only [hlookup]
    rfl
  | none =>
    obtain ⟨mid, hfresh, hmiddle, hzeros, hcount⟩ := exists_freshLocal var state
    have hid : mid.graph.locals.count ≤ twoPow 32 →
        state.graph.locals.count % twoPow 32 = state.graph.locals.count :=
      fun hbound => Nat.mod_eq_of_lt (by omega)
    refine ⟨state.graph.locals.count % twoPow 32, { mid with
      zeros := (var.register, state.graph.locals.count % twoPow 32) :: mid.zeros }, ?_,
      ⟨⟨hmiddle.later.count, ?_, ?_, ?_⟩, hmiddle.blocks, hmiddle.scopes⟩, ?_⟩
    · rw [zeroLocal, Rename.run_get_bind]
      simp only [hlookup]
      rw [Rename.run_bind hfresh]
      rfl
    · intro reg id hold
      have hne : reg ≠ var.register := by
        rintro rfl
        simp [hlookup] at hold
      rw [lookup_cons, if_neg hne, hzeros]
      exact hold
    · intro hbound reg id hnew
      rw [lookup_cons, hzeros] at hnew
      split at hnew
      next =>
        cases hnew
        rw [hid hbound]
        exact .inr ⟨Nat.le_refl _, hcount ▸ Nat.lt_succ_self _⟩
      next => exact .inl hnew
    · intro hbound low hwithin hdist first second id hone htwo
      have hnumber := hid hbound
      rw [lookup_cons, hzeros, hnumber] at hone htwo
      split at hone <;> split at htwo
      next h₁ h₂ => exact h₁.trans h₂.symm
      next =>
        have := (hwithin htwo).2
        simp only [Option.some.injEq] at hone
        omega
      next =>
        have := (hwithin hone).2
        simp only [Option.some.injEq] at htwo
        omega
      next => exact hdist hone htwo
    · rw [lookup_cons, if_pos rfl]

/-! ## Uses -/

/-- What stands for an operand in a scope. -/
def resolve (zeros scope : Scope) : Operand → Operand
  | .register reg type =>
    match scope.lookup reg with
    | some id => .localVar id type
    | none =>
      match zeros.lookup reg with
      | some id => .localVar id type
      | none => .register reg type
  | opnd => opnd

/-- A register has a local to stand for it. -/
def Resolved (zeros scope : Scope) (opnd : Operand) : Prop :=
  ∀ ⦃reg type⦄, opnd = .register reg type →
    scope.lookup reg ≠ none ∨ zeros.lookup reg ≠ none

/-- A local takes the place of a register, and every other operand stays. -/
theorem resolve_cases (zeros scope : Scope) (opnd : Operand) :
    (∃ reg type id, opnd = .register reg type ∧ resolve zeros scope opnd = .localVar id type ∧
      (scope.lookup reg = some id ∨ scope.lookup reg = none ∧ zeros.lookup reg = some id)) ∨
    resolve zeros scope opnd = opnd ∧ (Resolved zeros scope opnd → opnd.register? = none) := by
  cases opnd with
  | constant bits type => exact .inr ⟨rfl, fun _ => rfl⟩
  | localVar id type => exact .inr ⟨rfl, fun _ => rfl⟩
  | register reg type =>
    cases hscope : scope.lookup reg with
    | some id => exact .inl ⟨reg, type, id, rfl, by simp only [resolve, hscope], .inl hscope⟩
    | none =>
      cases hzeros : zeros.lookup reg with
      | some id =>
        exact .inl ⟨reg, type, id, rfl, by simp only [resolve, hscope, hzeros], .inr ⟨hscope, hzeros⟩⟩
      | none =>
        exact .inr ⟨by simp only [resolve, hscope, hzeros], fun h => by simpa [hscope, hzeros] using h rfl⟩

theorem resolve_resolve (zeros scope : Scope) (opnd : Operand) :
    resolve zeros scope (resolve zeros scope opnd) = resolve zeros scope opnd := by
  rcases resolve_cases zeros scope opnd with ⟨_, _, _, -, hlocal, -⟩ | ⟨hsame, -⟩
  · rw [hlocal]
    rfl
  · rw [hsame, hsame]

theorem register?_resolve (hres : Resolved zeros scope opnd) :
    (resolve zeros scope opnd).register? = none := by
  rcases resolve_cases zeros scope opnd with ⟨_, _, _, -, hlocal, -⟩ | ⟨hsame, hnone⟩
  · rw [hlocal]
    rfl
  · rw [hsame, hnone hres]

theorem Resolved.mono {more : Scope} (hres : Resolved zeros scope opnd)
    (hmore : Extends zeros more) : Resolved more scope opnd := by
  intro reg type hopnd
  refine (hres hopnd).imp_right fun hsome => ?_
  obtain ⟨id, hid⟩ := Option.ne_none_iff_exists'.mp hsome
  simp [hmore hid]

/-- What stands for an operand depends on further cleared locals, unless there is one. -/
theorem resolved_of_forall
    (hsame : ∀ more, Extends zeros more → resolve zeros scope opnd = resolve more scope opnd) :
    Resolved zeros scope opnd := by
  rintro reg type rfl
  by_contra hnone
  obtain ⟨hscope, hzeros⟩ : scope.lookup reg = none ∧ zeros.lookup reg = none := by
    simpa only [not_or, Decidable.not_not] using hnone
  have hext : Extends zeros ((reg, 0) :: zeros) := by
    intro other id hid
    have hne : other ≠ reg := by
      rintro rfl
      simp [hzeros] at hid
    rw [lookup_cons, if_neg hne]
    exact hid
  have hequal := hsame _ hext
  simp [resolve, hscope, hzeros] at hequal

/-- A run that only allocates, and whose answer depends on the cleared locals alone. -/
def Yields {α : Type} (action : Rename α) (answer : Scope → α) : Prop :=
  ∀ state, ∃ a next, action state = .ok (a, next) ∧ Allocates state next ∧
    ∀ zeros, Extends next.zeros zeros → a = answer zeros

namespace Yields

variable {α β : Type}

theorem pure (a : α) : Yields (Pure.pure a) fun _ => a :=
  fun state => ⟨a, state, rfl, .refl state, fun _ _ => rfl⟩

theorem bind {action : Rename α} {next : α → Rename β} {first : Scope → α} {second : α → Scope → β}
    (haction : Yields action first) (hnext : ∀ a, Yields (next a) (second a)) :
    Yields (action >>= next) fun zeros => second (first zeros) zeros := by
  intro state
  obtain ⟨a, mid, hrun, hmiddle, ha⟩ := haction state
  obtain ⟨b, last, hrun', hlast, hb⟩ := hnext a mid
  refine ⟨b, last, (Rename.run_bind hrun).trans hrun', hmiddle.trans hlast, fun zeros hzeros => ?_⟩
  rw [hb zeros hzeros, ha zeros fun _ _ h => hzeros (hlast.later.kept h)]

theorem mapM {step : α → Rename β} {answer : α → Scope → β} {items : List α}
    (hstep : ∀ a ∈ items, Yields (step a) (answer a)) :
    Yields (items.mapM step) fun zeros => items.map (answer · zeros) := by
  induction items with
  | nil => exact pure []
  | cons a rest ih =>
    rw [mapM_cons]
    exact (hstep a mem_cons_self).bind fun b =>
      (ih fun a ha => hstep a (.tail _ ha)).bind fun bs => pure (b :: bs)

end Yields

variable {vars : List GuestVariable}

/-- A register operand is that of a variable. -/
def Known (vars : List GuestVariable) (opnd : Operand) : Prop :=
  ∀ ⦃reg type⦄, opnd = .register reg type → (GuestVariable.find? vars reg).isSome

theorem register_of_find? {var : GuestVariable}
    (hfind : GuestVariable.find? vars reg = some var) : var.register = reg := by
  simpa using find?_some hfind

theorem yields_renameUse (scope : Scope) (hknown : Known vars opnd) :
    Yields (renameUse vars scope opnd) fun zeros => resolve zeros scope opnd := by
  cases opnd with
  | constant bits type => exact .pure _
  | localVar id type => exact .pure _
  | register reg type =>
    obtain ⟨var, hvar⟩ := Option.isSome_iff_exists.mp (hknown rfl)
    have hreg := register_of_find? hvar
    intro state
    cases hscope : scope.lookup reg with
    | some id =>
      refine ⟨.localVar id type, state, ?_, .refl state, fun zeros _ => ?_⟩
      · simp only [renameUse, hvar, hscope]
        rfl
      · simp only [resolve, hscope]
    | none =>
      obtain ⟨id, next, hrun, hnext, hid⟩ := exists_zeroLocal var state
      refine ⟨.localVar id type, next, ?_, hnext, fun zeros hzeros => ?_⟩
      · simp only [renameUse, hvar, hscope]
        exact Rename.run_bind hrun
      · have hlookup : zeros.lookup reg = some id := hzeros (hreg ▸ hid)
        simp only [resolve, hscope, hlookup]

/-! ## Phi inputs -/

/-- Change the inputs of a phi, each according to its label. -/
def mapInputs (change : Nat → Operand → Operand) (op : Operation) : Operation :=
  if op.isPhi then { op with sources := List.zipWith change op.labels op.sources } else op

/-- The input of one edge is resolved, and the others stay. -/
def feedInput (zeros scope : Scope) (b label : Nat) (src : Operand) : Operand :=
  if label = b then resolve zeros scope src else src

/-- Every register is that of a variable, and every input of a phi has its label. -/
structure Readable (vars : List GuestVariable) (op : Operation) : Prop where
  known : ∀ opnd ∈ op.operands, Known vars opnd
  labels : op.isPhi → op.labels.length = op.sources.length

theorem yields_renameInputs (scope : Scope) (b : Nat) {labels : List Nat} {sources : List Operand}
    (hlength : labels.length = sources.length) (hknown : ∀ src ∈ sources, Known vars src) :
    Yields (renameInputs vars scope b labels sources) fun zeros =>
      List.zipWith (feedInput zeros scope b) labels sources := by
  induction labels generalizing sources with
  | nil =>
    rw [length_eq_zero_iff.mp hlength.symm]
    exact .pure []
  | cons label labels ih =>
    cases sources with
    | nil => simp at hlength
    | cons src sources =>
      have hrest := ih (Nat.succ.inj hlength) fun s hs => hknown s (.tail _ hs)
      by_cases hlabel : label = b
      · have hfeed : ∀ zeros, feedInput zeros scope b label src =
            resolve zeros scope src := fun _ => if_pos hlabel
        simp only [renameInputs, zipWith_cons_cons, hfeed, if_pos hlabel]
        exact (yields_renameUse scope (hknown src mem_cons_self)).bind fun first =>
          hrest.bind fun rest => .pure (first :: rest)
      · have hfeed : ∀ zeros, feedInput zeros scope b label src = src :=
          fun _ => if_neg hlabel
        simp only [renameInputs, zipWith_cons_cons, hfeed, if_neg hlabel]
        exact (Yields.pure src).bind fun first =>
          hrest.bind fun rest => .pure (first :: rest)

theorem yields_feedOperation (scope : Scope) (b : Nat) (hread : Readable vars op) :
    Yields (feedOperation vars scope b op) fun zeros => mapInputs (feedInput zeros scope b) op := by
  unfold feedOperation mapInputs
  split
  next hphi =>
    have hknown : ∀ src ∈ op.sources, Known vars src := fun src hsrc =>
      hread.known src (mem_append_right _ hsrc)
    exact (yields_renameInputs scope b (hread.labels hphi) hknown).bind fun sources =>
      .pure { op with sources }
  next => exact .pure op

/-! ## Operations -/

/-- The sources of a renamed operation. Those of a phi are not read in its own block. -/
def readSources (zeros scope : Scope) (op : Operation) : List Operand :=
  if op.isPhi then op.sources else op.sources.map (resolve zeros scope)

/-- One renamed operation. A definition takes a number of the range that nothing else
stands for. -/
inductive RenamesOne (zeros : Scope) (low high : Nat) (scope : Scope) (op : Operation) :
    Operation → Scope → Prop where
  | keep (hdest : op.destination.bind Operand.register? = none)
      (hsrcs : op.isPhi = false → ∀ src ∈ op.sources, Resolved zeros scope src) :
      RenamesOne zeros low high scope op { op with sources := readSources zeros scope op } scope
  | define {reg : GuestRegister} {type : ValueType} {id : Nat}
      (hdest : op.destination = some (.register reg type)) (hlow : low ≤ id) (hhigh : id < high)
      (hscope : ∀ other, scope.lookup other ≠ some id)
      (hzeros : ∀ other, zeros.lookup other ≠ some id)
      (hsrcs : op.isPhi = false → ∀ src ∈ op.sources, Resolved zeros scope src) :
      RenamesOne zeros low high scope op
        { op with
          sources := readSources zeros scope op
          destination := some (.localVar id type) }
        ((reg, id) :: scope)

/-- Renamed operations in order, each with a range of its own. -/
inductive Renames (zeros : Scope) :
    Nat → Nat → Scope → List Operation → List Operation → Scope → Prop where
  | nil {low high : Nat} {scope : Scope} (hle : low ≤ high) : Renames zeros low high scope [] [] scope
  | cons {low mid high : Nat} {scope next last : Scope} {op new : Operation}
      {rest others : List Operation} (hle : low ≤ mid)
      (hop : RenamesOne zeros low mid scope op new next)
      (hrest : Renames zeros mid high next rest others last) :
      Renames zeros low high scope (op :: rest) (new :: others) last

/-- Apart from its operands the operation is the same. -/
structure Reshapes (op new : Operation) : Prop where
  instruction : new.instruction = op.instruction
  labels : new.labels = op.labels
  sources : new.sources.length = op.sources.length
  destination : new.destination.isSome = op.destination.isSome

theorem Reshapes.refl (op : Operation) : Reshapes op op := ⟨rfl, rfl, rfl, rfl⟩

theorem Reshapes.trans {first second third : Operation} (hfirst : Reshapes first second)
    (hsecond : Reshapes second third) : Reshapes first third :=
  ⟨hsecond.instruction.trans hfirst.instruction, hsecond.labels.trans hfirst.labels,
    hsecond.sources.trans hfirst.sources, hsecond.destination.trans hfirst.destination⟩

theorem Reshapes.isPhi {new : Operation} (hshape : Reshapes op new) : new.isPhi = op.isPhi := by
  simp only [Operation.isPhi, hshape.instruction]

theorem known_localVar (id : Nat) (type : ValueType) : Known vars (.localVar id type) :=
  fun _ _ h => by cases h

theorem known_resolve (zeros scope : Scope) (hknown : Known vars opnd) :
    Known vars (resolve zeros scope opnd) := by
  rcases resolve_cases zeros scope opnd with ⟨_, _, _, -, hlocal, -⟩ | ⟨hsame, -⟩
  · exact hlocal ▸ known_localVar ..
  · exact hsame.symm ▸ hknown

theorem length_readSources (zeros scope : Scope) (op : Operation) :
    (readSources zeros scope op).length = op.sources.length := by
  unfold readSources
  split
  next => rfl
  next => exact length_map ..

theorem Readable.readSources (hread : Readable vars op) (zeros scope : Scope)
    {dest : Option Operand} (hdest : ∀ opnd ∈ dest, Known vars opnd) :
    Readable vars { op with sources := SSA.readSources zeros scope op, destination := dest } := by
  have hsrc : ∀ src ∈ op.sources, Known vars src := fun src hmem =>
    hread.known src (mem_append_right _ hmem)
  refine ⟨fun opnd hopnd => ?_, fun hphi => ?_⟩
  · rcases mem_append.mp hopnd with hmem | hmem
    · exact hdest opnd (Option.mem_toList.mp hmem)
    · unfold SSA.readSources at hmem
      split at hmem
      next => exact hsrc opnd hmem
      next =>
        obtain ⟨src, hmem', rfl⟩ := mem_map.mp hmem
        exact known_resolve zeros scope (hsrc src hmem')
  · exact (hread.labels hphi).trans (length_readSources zeros scope op).symm

variable (vars) in
/-- Rename the sources of an operation in its own block. -/
def renameSources (readsInputs : Bool) (scope : Scope) (op : Operation) : Rename (List Operand) :=
  if op.isPhi && !readsInputs then pure op.sources else op.sources.mapM (renameUse vars scope)

theorem yields_renameSources (scope : Scope) (hread : Readable vars op) :
    Yields (renameSources vars false scope op) fun zeros => readSources zeros scope op := by
  unfold readSources renameSources
  rw [Bool.not_false, Bool.and_true]
  split
  next => exact .pure op.sources
  next =>
    have hknown : ∀ src ∈ op.sources, Known vars src := fun src hsrc =>
      hread.known src (mem_append_right _ hsrc)
    exact .mapM fun src hsrc => yields_renameUse scope (hknown src hsrc)

theorem renameOperation_eq (readsInputs : Bool) (scope : Scope) (op : Operation) :
    renameOperation vars readsInputs scope op = renameSources vars readsInputs scope op >>=
      fun sources => match op.destination with
      | none => pure ({ op with sources }, scope)
      | some opnd => renameDefinition vars scope opnd >>= fun result =>
        pure ({ op with sources, destination := some result.1 }, result.2) := by
  unfold renameOperation renameSources
  cases op.isPhi && !readsInputs <;> rfl

/-- Only a register gets a new local. -/
theorem renameDefinition_eq (hdest : opnd.register? = none) :
    renameDefinition vars scope opnd = pure (opnd, scope) := by
  cases opnd with
  | register reg type => simp [Operand.register?] at hdest
  | constant bits type => rfl
  | localVar id type => rfl

theorem exists_renameDefinition (scope : Scope) (type : ValueType)
    (hknown : (GuestVariable.find? vars reg).isSome) (state : Renaming) :
    ∃ id next, renameDefinition vars scope (.register reg type) state =
        .ok ((.localVar id type, (reg, id) :: scope), next) ∧
      Allocates state next ∧ next.zeros = state.zeros ∧
      next.graph.locals.count = state.graph.locals.count + 1 ∧
      (next.graph.locals.count ≤ twoPow 32 → id = state.graph.locals.count) := by
  obtain ⟨var, hvar⟩ := Option.isSome_iff_exists.mp hknown
  obtain ⟨next, hfresh, hnext, hzeros, hcount⟩ := exists_freshLocal var state
  refine ⟨state.graph.locals.count % twoPow 32, next, ?_, hnext, hzeros, hcount,
    fun hbound => Nat.mod_eq_of_lt (by omega)⟩
  simp only [renameDefinition, hvar]
  exact Rename.run_bind hfresh

/-- What a step says of the locals in the end, whatever is renamed behind it: names from
`scope` have become those of `last`, and the new ones have numbers of their own. -/
def Settles (state next : Renaming) (scope last : Scope)
    (renames : Scope → Nat → Nat → Prop) : Prop :=
  ∀ final low, Later next final → final.graph.locals.count ≤ twoPow 32 →
    low ≤ state.graph.locals.count → Within low state.graph.locals.count state.zeros →
    Within low state.graph.locals.count scope →
    renames final.zeros state.graph.locals.count next.graph.locals.count ∧
      Within low next.graph.locals.count last

theorem exists_renameOperation (scope : Scope) (hread : Readable vars op) (state : Renaming) :
    ∃ new last next, renameOperation vars false scope op state = .ok ((new, last), next) ∧
      Allocates state next ∧ Reshapes op new ∧ Readable vars new ∧
      Settles state next scope last fun zeros low high =>
        RenamesOne zeros low high scope op new last := by
  obtain ⟨sources, mid, hrun, hmiddle, hsrcs⟩ := yields_renameSources scope hread state
  rw [renameOperation_eq, Rename.run_bind hrun]
  have hres : op.isPhi = false → ∀ zeros, Extends mid.zeros zeros →
      ∀ src ∈ op.sources, Resolved zeros scope src := by
    intro hphi zeros hzeros src hsrc
    refine resolved_of_forall fun more hmore => ?_
    have hfirst := hsrcs zeros hzeros
    rw [hsrcs more fun _ _ h => hmore (hzeros h)] at hfirst
    simp only [readSources, hphi, Bool.false_eq_true, if_false, map_inj_left] at hfirst
    exact (hfirst src hsrc).symm
  -- without a register to define, the sources are all there is
  have hkeep : op.destination.bind Operand.register? = none →
      ∀ final low, Later mid final → Within low state.graph.locals.count scope →
        RenamesOne final.zeros state.graph.locals.count mid.graph.locals.count scope op
            { op with sources } scope ∧
          Within low mid.graph.locals.count scope := by
    intro hdest final low hlater hscope
    rw [hsrcs final.zeros hlater.kept]
    exact ⟨.keep hdest fun hphi => hres hphi _ hlater.kept, hscope.mono hmiddle.later.count⟩
  have hvalue := hsrcs mid.zeros fun _ _ h => h
  have hdst : ∀ opnd ∈ op.destination, Known vars opnd := fun opnd hmem =>
    hread.known opnd (mem_append_left _ (Option.mem_toList.mpr hmem))
  have hlength := length_readSources mid.zeros scope op
  have hshape : Reshapes op { op with sources } := ⟨rfl, rfl, hvalue ▸ hlength, rfl⟩
  have hread' : Readable vars { op with sources } := hvalue ▸ hread.readSources _ _ hdst
  cases hdest : op.destination with
  | none =>
    exact ⟨_, _, mid, rfl, hmiddle, hdest ▸ hshape, hdest ▸ hread', fun final low hlater _ _ _ hscope =>
      hdest ▸ hkeep (by simp [hdest]) final low hlater hscope⟩
  | some opnd =>
    cases hopnd : opnd.register? with
    | none =>
      refine ⟨_, _, mid, ?_, hmiddle, hdest ▸ hshape, hdest ▸ hread', fun final low hlater _ _ _ hscope =>
        hdest ▸ hkeep (by simp [hdest, hopnd]) final low hlater hscope⟩
      simp only [renameDefinition_eq hopnd]
      rfl
    | some reg =>
      obtain ⟨type, rfl⟩ : ∃ type, opnd = .register reg type := by
        cases opnd <;> simp_all [Operand.register?]
      have hknown : (GuestVariable.find? vars reg).isSome :=
        hread.known (.register reg type) (by simp [Operation.operands, hdest]) rfl
      obtain ⟨id, next, hdefine, hnext, hzeros, hcount, hid⟩ :=
        exists_renameDefinition scope type hknown mid
      refine ⟨_, _, next, Rename.run_bind hdefine, hmiddle.trans hnext,
        ⟨rfl, rfl, hvalue ▸ hlength, by rw [hdest]; rfl⟩, ?_, ?_⟩
      · rw [hvalue]
        exact hread.readSources _ _ fun opnd hmem => Option.mem_some.mp hmem ▸ known_localVar ..
      intro final low hlater hbound hlow hwithin hscope
      have hnumber := hid (hlater.count.trans hbound)
      have hle := hmiddle.later.count
      have hlast := hlater.count
      have hkept : Extends mid.zeros final.zeros := fun _ _ h => hlater.kept (hnext.later.kept h)
      rw [hsrcs final.zeros hkept]
      refine ⟨.define hdest (by omega) (by omega) ?_ ?_ fun hphi => hres hphi _ hkept, ?_⟩
      · intro other hother
        have := (hscope hother).2
        omega
      · intro other hother
        rcases hlater.fresh hbound hother with hother | hother
        · have hmiddle' := hmiddle.later.within (by omega) hlow hwithin
          have := (hmiddle' (hzeros ▸ hother)).2
          omega
        · omega
      · intro other number hother
        rw [lookup_cons] at hother
        split at hother
        next =>
          cases hother
          omega
        next =>
          have := hscope hother
          omega

theorem exists_renameOperations (scope : Scope) (hread : ∀ op ∈ ops, Readable vars op)
    (state : Renaming) :
    ∃ new last next, renameOperations vars false scope ops state = .ok ((new, last), next) ∧
      Allocates state next ∧ Forall₂ Reshapes ops new ∧ (∀ op ∈ new, Readable vars op) ∧
      Settles state next scope last fun zeros low high =>
        Renames zeros low high scope ops new last := by
  induction ops generalizing scope state with
  | nil =>
    exact ⟨_, _, state, rfl, .refl state, .nil, by simp, fun _ _ _ _ _ _ hscope =>
      ⟨.nil (Nat.le_refl _), hscope⟩⟩
  | cons op rest ih =>
    obtain ⟨new, next, mid, hop, hmiddle, hshape, hnew, hspec⟩ :=
      exists_renameOperation scope (hread op mem_cons_self) state
    obtain ⟨others, last, final, hrest, hfinal, hshapes, hothers, hspecs⟩ :=
      ih next (fun op hop => hread op (.tail _ hop)) mid
    refine ⟨new :: others, last, final, ?_, hmiddle.trans hfinal, .cons hshape hshapes,
      forall_mem_cons.mpr ⟨hnew, hothers⟩, ?_⟩
    · exact (Rename.run_bind hop).trans (Rename.run_bind hrest)
    · intro whole low hlater hbound hlow hzeros hscope
      have hend := hfinal.later.trans hlater
      obtain ⟨hone, hnext⟩ := hspec whole low hend hbound hlow hzeros hscope
      obtain ⟨hall, hlast⟩ := hspecs whole low hlater hbound (hlow.trans hmiddle.later.count)
        (hmiddle.later.within (hend.count.trans hbound) hlow hzeros) hnext
      exact ⟨.cons hmiddle.later.count hone hall, hlast⟩

/-! ## Blocks -/

/-- Operations that can be renamed, and successors that exist. -/
structure Renamable (vars : List GuestVariable) (graph : Graph) : Prop where
  readable : ∀ ⦃b : Nat⦄ ⦃block : Block⦄, graph.blocks[b]? = some block →
    ∀ op ∈ block.operations, Readable vars op
  successors : ∀ ⦃b : Nat⦄ ⦃block : Block⦄, graph.blocks[b]? = some block →
    ∀ succ ∈ block.successors, succ < graph.size

/-- The operations of each block are changed in some way. -/
structure Rewrites (change : Nat → Block → Block) (first second : Graph) : Prop where
  blocks : ∀ b : Nat, second.blocks[b]? = first.blocks[b]?.map (change b)
  successors : ∀ b block, (change b block).successors = block.successors

namespace Rewrites

variable {change : Nat → Block → Block} {first second : Graph}

theorem size (hrewr : Rewrites change first second) : second.size = first.size := by
  have hnone : ∀ b : Nat, second.blocks[b]? = none ↔ first.blocks[b]? = none := fun b => by
    rw [hrewr.blocks b, Option.map_eq_none_iff]
  simp only [Array.getElem?_eq_none_iff] at hnone
  exact Nat.le_antisymm ((hnone _).mpr (Nat.le_refl _)) ((hnone _).mp (Nat.le_refl _))

theorem renamable (hrewr : Rewrites change first second) (hfirst : Renamable vars first)
    (hread : ∀ (b : Nat) (block : Block), first.blocks[b]? = some block →
      ∀ op ∈ (change b block).operations, Readable vars op) : Renamable vars second := by
  refine ⟨fun b block hblock => ?_, fun b block hblock => ?_⟩
  all_goals
    rw [hrewr.blocks b] at hblock
    obtain ⟨old, hold, rfl⟩ := Option.map_eq_some_iff.mp hblock
  · exact hread b old hold
  · rw [hrewr.successors, hrewr.size]
    exact hfirst.successors hold

end Rewrites

/-- Feed the phis of a block from block `b`. -/
def feedBlock (zeros scope : Scope) (b : Nat) (block : Block) : Block :=
  { block with operations := block.operations.map (mapInputs (feedInput zeros scope b)) }

theorem isPhi_mapInputs (change : Nat → Operand → Operand) (op : Operation) :
    (mapInputs change op).isPhi = op.isPhi := by
  unfold mapInputs
  split <;> rfl

theorem inputs_mapInputs (hphi : op.isPhi) (change : Nat → Operand → Operand) :
    (mapInputs change op).inputs = op.inputs.map fun input => (input.1, change input.1 input.2) := by
  have hzip : ∀ (labels : List Nat) (sources : List Operand),
      labels.zip (List.zipWith change labels sources) =
        (labels.zip sources).map fun input => (input.1, change input.1 input.2) := by
    intro labels
    induction labels with
    | nil => simp
    | cons label labels ih => rintro (_ | ⟨src, sources⟩) <;> simp [ih]
  rw [mapInputs, if_pos hphi]
  exact hzip op.labels op.sources

theorem mapInputs_eq (hphi : op.isPhi) (change : Nat → Operand → Operand) :
    mapInputs change op = { op with sources := op.inputs.map (Function.uncurry change) } := by
  rw [mapInputs, if_pos hphi, Operation.inputs, map_uncurry_zip_eq_zipWith]

theorem mapInputs_mapInputs (first second : Nat → Operand → Operand) (op : Operation) :
    mapInputs second (mapInputs first op) =
      mapInputs (fun label src => second label (first label src)) op := by
  cases hphi : op.isPhi with
  | false => simp [mapInputs, hphi]
  | true =>
    rw [mapInputs_eq ((isPhi_mapInputs first op).trans hphi), inputs_mapInputs hphi,
      mapInputs_eq hphi, mapInputs_eq hphi, map_map]
    rfl

theorem feedBlock_feedBlock (zeros scope : Scope) (b : Nat) (block : Block) :
    feedBlock zeros scope b (feedBlock zeros scope b block) = feedBlock zeros scope b block := by
  have hfeed : (fun label src => feedInput zeros scope b label
      (feedInput zeros scope b label src)) = feedInput zeros scope b := by
    funext label src
    unfold feedInput
    split
    next => exact resolve_resolve zeros scope src
    next => rfl
  simp only [feedBlock, map_map, Function.comp_def, mapInputs_mapInputs, hfeed]

theorem Readable.mapInputs (hread : Readable vars op) {change : Nat → Operand → Operand}
    (hchange : ∀ label src, Known vars src → Known vars (change label src)) :
    Readable vars (mapInputs change op) := by
  unfold SSA.mapInputs
  split
  next hphi =>
    refine ⟨fun opnd hopnd => ?_, fun _ => ?_⟩
    · rcases mem_append.mp hopnd with hmem | hmem
      · exact hread.known opnd (mem_append_left _ hmem)
      · obtain ⟨input, hinput, rfl⟩ : ∃ input ∈ op.labels.zip op.sources,
            Function.uncurry change input = opnd := by
          rw [← mem_map, map_uncurry_zip_eq_zipWith]
          exact hmem
        exact hchange _ _ (hread.known _ (mem_append_right _ (of_mem_zip hinput).2))
    · simp [hread.labels hphi]
  next => exact hread

theorem readable_feedBlock (zeros scope : Scope) (b : Nat)
    (hread : ∀ op ∈ block.operations, Readable vars op) :
    ∀ op ∈ (feedBlock zeros scope b block).operations, Readable vars op := by
  intro op hop
  obtain ⟨old, hold, rfl⟩ := mem_map.mp hop
  refine (hread old hold).mapInputs fun label src hknown => ?_
  unfold feedInput
  split
  next => exact known_resolve zeros scope hknown
  next => exact hknown

theorem exists_setOperations (operations : List Operation) (hb : b < state.graph.size) :
    ∃ next, setOperations b operations state = .ok ((), next) ∧
      next.graph.locals = state.graph.locals ∧ next.zeros = state.zeros ∧
      next.scopes = state.scopes ∧
      next.graph.blocks = state.graph.blocks.modify b fun block => { block with operations } := by
  refine ⟨{ state with graph := { state.graph with
    blocks := state.graph.blocks.modify b fun block => { block with operations } } }, ?_,
    rfl, rfl, rfl, rfl⟩
  rw [setOperations, Rename.run_get_bind]
  exact Rename.run_bind (Rename.run_liftM (modify_eq_ok _ hb) state)

theorem exists_feedSuccessor (scope : Scope) (b : Nat) {succ : Nat}
    (hstate : Renamable vars state.graph) (hsucc : succ < state.graph.size) :
    ∃ next, feedSuccessor vars scope b succ state = .ok ((), next) ∧ Later state next ∧
      next.scopes = state.scopes ∧ ∀ zeros, Extends next.zeros zeros →
        next.graph.blocks = state.graph.blocks.modify succ (feedBlock zeros scope b) := by
  obtain ⟨block, hblock⟩ := exists_block hsucc
  obtain ⟨ops, mid, hrun, hmiddle, hops⟩ :=
    Yields.mapM (fun op hop => yields_feedOperation scope b (hstate.readable hblock op hop)) state
  have hb : succ < mid.graph.size := by rwa [Graph.size, hmiddle.blocks]
  obtain ⟨next, hset, hlocals, hkept, hscopes, hblocks⟩ := exists_setOperations ops hb
  have hnext : Later mid next := .of_eq hlocals hkept
  refine ⟨next, ?_, hmiddle.later.trans hnext, hscopes.trans hmiddle.scopes, ?_⟩
  · rw [feedSuccessor, Rename.run_get_bind,
      Rename.run_bind (Rename.run_liftM (block_eq_ok hblock) state), Rename.run_bind hrun, hset]
  · intro zeros hzeros
    rw [hblocks, hmiddle.blocks, hops zeros fun _ _ h => hzeros (hnext.kept h)]
    refine Array.ext_getElem? fun c => ?_
    rw [Array.getElem?_modify, Array.getElem?_modify]
    split
    next heq =>
      rw [← heq, hblock]
      rfl
    next => rfl

/-- Feeding the successors of a block. -/
theorem exists_feedSuccessors (scope : Scope) (b : Nat) {successors : List Nat}
    (hstate : Renamable vars state.graph) (hsuccs : ∀ succ ∈ successors, succ < state.graph.size) :
    ∃ next, successors.forM (feedSuccessor vars scope b) state = .ok ((), next) ∧
      Later state next ∧ next.scopes = state.scopes ∧ ∀ zeros, Extends next.zeros zeros →
        Rewrites (fun c block => if c ∈ successors then feedBlock zeros scope b block else block)
          state.graph next.graph := by
  induction successors generalizing state with
  | nil =>
    exact ⟨state, rfl, .refl state, rfl, fun zeros _ => ⟨fun c => by simp, fun c block => by simp⟩⟩
  | cons succ rest ih =>
    obtain ⟨mid, hone, hmiddle, hscopes, hblocks⟩ :=
      exists_feedSuccessor scope b hstate (hsuccs succ mem_cons_self)
    have hrewr : ∀ zeros, Extends mid.zeros zeros → Rewrites
        (fun c block => if succ = c then feedBlock zeros scope b block else block)
        state.graph mid.graph := by
      refine fun zeros hzeros => ⟨fun c => ?_, fun c block => by split <;> rfl⟩
      rw [hblocks zeros hzeros, Array.getElem?_modify]
      split <;> simp_all
    have hself := hrewr mid.zeros fun _ _ h => h
    have hrenamable : Renamable vars mid.graph := by
      refine hself.renamable hstate fun c block hblock => ?_
      split
      next => exact readable_feedBlock _ _ _ (hstate.readable hblock)
      next => exact hstate.readable hblock
    obtain ⟨next, hall, hnext, hscopes', hrest⟩ := ih hrenamable fun c hc =>
      hself.size ▸ hsuccs c (.tail _ hc)
    refine ⟨next, (Rename.run_bind hone).trans hall, hmiddle.trans hnext,
      hscopes'.trans hscopes, fun zeros hzeros => ⟨fun c => ?_, fun c block => ?_⟩⟩
    · rw [(hrest zeros hzeros).blocks, (hrewr zeros fun _ _ h => hzeros (hnext.kept h)).blocks,
        Option.map_map]
      congr 1
      funext block
      by_cases hc : succ = c
      · subst hc
        simp [feedBlock_feedBlock]
      · simp [hc, Ne.symm hc]
    · split <;> rfl

/-- The scope that a block starts with: that of the block above it in the tree. -/
def scopeIn (tree : DominatorTree) (scopes : Array Scope) (b : Nat) : Scope :=
  ((tree.parent? b).bind fun parent => scopes[parent]?).getD []

/-- What renaming block `b` does to a block. -/
def renameIn (zeros scope : Scope) (b : Nat) (operations : List Operation) (successors : List Nat)
    (c : Nat) (block : Block) : Block :=
  let own := if c = b then { block with operations } else block
  if c ∈ successors then feedBlock zeros scope b own else own

theorem Renames.mono {last : Scope} {new : List Operation}
    (hren : Renames zeros low high scope ops new last) (hle : high ≤ top) :
    Renames zeros low top scope ops new last := by
  induction hren with
  | nil hlow => exact .nil (hlow.trans hle)
  | cons hmiddle hop _ ih => exact .cons hmiddle hop (ih hle)

theorem exists_renameBlock (tree : DominatorTree) (hstate : Renamable vars state.graph)
    (hblock : state.graph.blocks[b]? = some block) :
    ∃ next operations scope, renameBlock vars tree b state = .ok ((), next) ∧
      Later state next ∧ next.scopes = state.scopes.setIfInBounds b scope ∧
      Forall₂ Reshapes block.operations operations ∧ (∀ op ∈ operations, Readable vars op) ∧
      (∀ zeros, Extends next.zeros zeros →
        Rewrites (renameIn zeros scope b operations block.successors) state.graph next.graph) ∧
      Settles state next (scopeIn tree state.scopes b) scope fun zeros low high =>
        Renames zeros low high (scopeIn tree state.scopes b) block.operations operations scope := by
  obtain ⟨operations, scope, renamed, hrun, hnamed, hshapes, hread, hspec⟩ :=
    exists_renameOperations (scopeIn tree state.scopes b) (hstate.readable hblock) state
  have hb : b < renamed.graph.size := by
    rw [Graph.size, hnamed.blocks]
    exact lt_size hblock
  obtain ⟨set, hset, hlocals, hzeros, hscopes, hblocks⟩ := exists_setOperations operations hb
  have hown : Rewrites (fun c old => if c = b then { old with operations } else old)
      state.graph set.graph := by
    refine ⟨fun c => ?_, fun c old => by split <;> rfl⟩
    rw [hblocks, hnamed.blocks, Array.getElem?_modify]
    by_cases hc : c = b
    · simp [hc]
    · simp [hc, Ne.symm hc]
  have hset' : Renamable vars set.graph := by
    refine hown.renamable hstate fun c old hold => ?_
    split
    next => exact hread
    next => exact hstate.readable hold
  obtain ⟨fed, hfed, hlater, hscopes', hfeeds⟩ := exists_feedSuccessors scope b hset' fun c hc =>
    hown.size ▸ hstate.successors hblock c hc
  have hrest : Later renamed set := .of_eq hlocals hzeros
  have hlast : Later fed { fed with scopes := fed.scopes.setIfInBounds b scope } := .of_eq rfl rfl
  have hchain := (hrest.trans hlater).trans hlast
  refine ⟨{ fed with scopes := fed.scopes.setIfInBounds b scope }, operations, scope, ?_,
    hnamed.later.trans hchain, ?_, hshapes, hread, ?_, ?_⟩
  · rw [renameBlock, Rename.run_get_bind,
      Rename.run_bind (Rename.run_liftM (block_eq_ok hblock) state), Rename.run_get_bind]
    exact (Rename.run_bind hrun).trans ((Rename.run_bind hset).trans (Rename.run_bind hfed))
  · rw [hscopes', hscopes, hnamed.scopes]
  · intro zeros hext
    have hfeed := hfeeds zeros hext
    refine ⟨fun c => ?_, fun c old => ?_⟩
    · rw [hfeed.blocks, hown.blocks, Option.map_map]
      rfl
    · exact (hfeed.successors c _).trans (hown.successors c old)
  · intro final low hfinal hbound hlow hwithin hscope
    obtain ⟨hall, hwithin'⟩ := hspec final low (hchain.trans hfinal) hbound hlow hwithin hscope
    exact ⟨hall.mono hchain.count, hwithin'.mono hchain.count⟩

end GraphJit.SSA
