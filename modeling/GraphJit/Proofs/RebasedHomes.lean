import GraphJit.Proofs.AllocatedHomes
import GraphJit.Proofs.RebasedForms
import Mathlib.Data.List.Sort

/-! # Checks and homes over another table of locals

Verification compares numbers of locals, and the allocator orders locals by number where
they are used equally often. Neither notices a renumbering that keeps the order: checks end
alike, and locals get the same homes. Errors are of the same kind, but may name other locals.
-/

namespace GraphJit

/-- Two outcomes with related results, with errors of one kind, or without an answer. -/
inductive Alike {α β : Type} (related : α → β → Prop) : Outcome α → Outcome β → Prop where
  | ok {a : α} {b : β} (hrelated : related a b) : Alike related (.ok a) (.ok b)
  | error {first second : CompileError} (hkind : first.kind = second.kind) :
      Alike related (.error (.error first)) (.error (.error second))
  | fault (first second : Fault) : Alike related (.error (.fault first)) (.error (.fault second))

namespace Alike

variable {α β γ δ : Type} {related : α → β → Prop} {related' : γ → δ → Prop}

theorem refl (outcome : Outcome α) : Alike Eq outcome outcome := by
  rcases outcome with (cause | cause) | a
  · exact fault cause cause
  · exact error rfl
  · exact ok rfl

theorem symm {first second : Outcome α} (halike : Alike Eq first second) :
    Alike Eq second first := by
  cases halike with
  | ok hrelated => exact ok hrelated.symm
  | error hkind => exact error hkind.symm
  | fault first second => exact fault second first

theorem unsupported (first second : Unsupported) :
    Alike related (GraphJit.unsupported first) (GraphJit.unsupported second) :=
  error rfl

theorem bind {first : Outcome α} {second : Outcome β} {next : α → Outcome γ} {next' : β → Outcome δ}
    (hfirst : Alike related first second)
    (hnext : ∀ a b, related a b → Alike related' (next a) (next' b)) :
    Alike related' (first >>= next) (second >>= next') := by
  cases hfirst with
  | ok hrelated => exact hnext _ _ hrelated
  | error hkind => exact error hkind
  | fault first second => exact fault first second

/-- What follows results of which one is the image of the other. -/
theorem bindTo {first : Outcome α} {second : Outcome β} {next : α → Outcome γ}
    {next' : β → Outcome δ} {image : α → β} (hfirst : Alike (fun a b => image a = b) first second)
    (hnext : ∀ a, Alike related' (next a) (next' (image a))) :
    Alike related' (first >>= next) (second >>= next') :=
  hfirst.bind fun a _ himage => himage ▸ hnext a

section

variable {first : Outcome α} {second : Outcome β} (halike : Alike related first second)
include halike

theorem mono {weaker : α → β → Prop} (himp : ∀ a b, related a b → weaker a b) :
    Alike weaker first second := by
  cases halike with
  | ok hrelated => exact ok (himp _ _ hrelated)
  | error hkind => exact error hkind
  | fault first second => exact fault first second

/-- Results are related as results of their computations. -/
theorem attach : Alike (fun a b => first = .ok a ∧ related a b) first second := by
  cases halike with
  | ok hrelated => exact ok ⟨rfl, hrelated⟩
  | error hkind => exact error hkind
  | fault first second => exact fault first second

end

theorem ite {cond : Prop} [Decidable cond] {first first' : Outcome α} {second second' : Outcome β}
    (hthen : Alike related first second) (helse : Alike related first' second') :
    Alike related (if cond then first else first') (if cond then second else second') := by
  split
  · exact hthen
  · exact helse

theorem foldlM {σ τ : Type} {kept : σ → τ → Prop} {step : σ → α → Outcome σ}
    {step' : τ → β → Outcome τ} {convert : α → β} {items : List α}
    (hstep : ∀ a ∈ items, ∀ state state', kept state state' →
      Alike kept (step state a) (step' state' (convert a))) {state : σ} {state' : τ}
    (hstate : kept state state') :
    Alike kept (items.foldlM step state) ((items.map convert).foldlM step' state') := by
  induction items generalizing state state' with
  | nil => exact ok hstate
  | cons a rest ih =>
    rw [List.map_cons, List.foldlM_cons, List.foldlM_cons]
    refine (hstep a List.mem_cons_self state state' hstate).bind fun next next' hnext => ?_
    exact ih (fun b hb => hstep b (.tail _ hb)) hnext

theorem forM {check : α → Outcome Unit} {check' : β → Outcome Unit} {convert : α → β}
    {items : List α} (hcheck : ∀ a ∈ items, Alike Eq (check a) (check' (convert a))) :
    Alike Eq (items.forM check) ((items.map convert).forM check') := by
  induction items with
  | nil => exact ok rfl
  | cons a rest ih =>
    refine (hcheck a List.mem_cons_self).bind fun _ _ _ => ?_
    exact ih fun b hb => hcheck b (.tail _ hb)

end Alike

namespace Rebasing

open SSA Allocation

variable (r : Rebasing)

/-! ## Verification -/

def definitions (defs : Definitions) : Definitions :=
  defs.map fun entry => (r.number entry.1, entry.2)

variable {r} (hinj : Function.Injective r.number)
include hinj

theorem lookup_definitions (defs : Definitions) (id : Nat) :
    (r.definitions defs).lookup (r.number id) = defs.lookup id := by
  induction defs with
  | nil => rfl
  | cons entry rest ih =>
    change ((r.number entry.1, entry.2) :: r.definitions rest).lookup (r.number id) = _
    rw [List.lookup_cons, List.lookup_cons, ih]
    simp only [beq_eq_decide, hinj.eq_iff]

theorem alike_noteDefinition (b : Nat) (defs : Definitions) (op : Operation) (pos : Nat) :
    Alike (fun first second => r.definitions first = second) (noteDefinition b defs op pos)
      (noteDefinition b (r.definitions defs) (r.operation op) pos) := by
  unfold noteDefinition
  rw [destination_operation]
  cases op.destination with
  | none => exact .ok rfl
  | some opnd =>
    cases opnd with
    | constant bits type => exact .ok rfl
    | register reg type => exact .error rfl
    | localVar id type =>
      simp only [Option.map_some, Rebasing.operand, lookup_definitions hinj]
      exact .ite (.error rfl) (.ok rfl)

theorem alike_noteDefinitions (graph : Graph) :
    Alike (fun first second => r.definitions first = second) (noteDefinitions graph)
      (noteDefinitions (r.graph graph)) := by
  unfold noteDefinitions
  rw [blocks_graph, Array.toList_map]
  refine Alike.foldlM (fun block _ defs _ hdefns => ?_) rfl
  subst hdefns
  rw [operations_block, List.zipIdx_map]
  refine Alike.foldlM (fun entry _ defs _ hdefns => ?_) rfl
  subst hdefns
  exact alike_noteDefinition hinj block.index defs entry.1 entry.2

theorem alike_checkSource (tree : DominatorTree) (defs : Definitions) (b pos : Nat)
    (op : Operation) (src : Operand) (k : Nat) :
    Alike Eq (checkSource tree defs b pos op src k)
      (checkSource tree (r.definitions defs) b pos (r.operation op) (r.operand src) k) := by
  cases src with
  | constant bits type => exact .ok rfl
  | register reg type => exact .error rfl
  | localVar id type =>
    simp only [checkSource, Rebasing.operand, lookup_definitions hinj]
    cases defs.lookup id with
    | none => exact .error rfl
    | some defn =>
      exact (Alike.refl _).bindTo fun reached => .ite (.error rfl) (.ok rfl)

theorem alike_checkOperation (tree : DominatorTree) (defs : Definitions) (block : Block)
    (op : Operation) (pos : Nat) : Alike Eq (checkOperation tree defs block op pos)
      (checkOperation tree (r.definitions defs) (r.block block) (r.operation op) pos) := by
  unfold checkOperation
  simp only [isPhi_operation, labels_operation, predecessors_block, index_block, sources_operation,
    List.zipIdx_map]
  refine .ite (.error rfl) (Alike.forM fun src _ => ?_)
  exact alike_checkSource hinj tree defs block.index pos op src.1 src.2

/-- Verification ends alike over another table. -/
theorem alike_verify (graph : Graph) : Alike Eq (verify graph) (verify (r.graph graph)) := by
  unfold verify
  refine (alike_noteDefinitions hinj graph).bindTo fun defs => ?_
  rw [ofGraph_graph, blocks_graph, Array.toList_map, List.filter_map]
  refine Alike.forM fun block _ => ?_
  rw [operations_block, List.zipIdx_map]
  refine Alike.forM fun entry _ => ?_
  exact alike_checkOperation hinj _ defs block entry.1 entry.2

omit hinj

/-! ## Allocation -/

theorem occurring_graph (graph : Graph) :
    occurring (r.graph graph) = (occurring graph).map r.number := by
  simp [occurring, operands_graph, List.filterMap_map, List.map_filterMap]

/-- The locals of the table that occur, by number. -/
def counted (graph : Graph) : List Nat :=
  (List.range (uses graph).size).filter fun id => (uses graph)[id]?.getD 0 != 0

theorem mem_counted_iff {graph : Graph} {id : Nat} :
    id ∈ counted graph ↔ id < graph.locals.count ∧ id ∈ occurring graph := by
  rw [counted, List.mem_filter, List.mem_range, size_uses]
  refine and_congr_right fun hid => ?_
  rw [getD_uses hid, bne_iff_ne, ← Nat.pos_iff_ne_zero, List.count_pos_iff]

variable {graph : Graph} (hmono : StrictMono r.number) (hfloor : r.floor ≤ graph.locals.count)
include hmono hfloor

omit hmono in
theorem number_lt_count_iff {id : Nat} :
    r.number id < (r.graph graph).locals.count ↔ id < graph.locals.count := by
  rw [locals_graph, count_table]
  unfold number
  split
  next hid =>
    have hlt := r.old_lt id hid
    omega
  next => omega

theorem counted_graph : counted (r.graph graph) = (counted graph).map r.number := by
  have hsorted (graph : Graph) : (counted graph).Pairwise (· < ·) := List.pairwise_lt_range.filter _
  refine (hsorted _).eq_of_mem_iff ?_ fun id => ?_
  · exact (hsorted graph).map _ fun _ _ hlt => hmono hlt
  · rw [mem_counted_iff, occurring_graph, List.mem_map, List.mem_map]
    constructor
    · rintro ⟨hid, old, hold, rfl⟩
      exact ⟨old, mem_counted_iff.mpr ⟨(number_lt_count_iff hfloor).mp hid, hold⟩, rfl⟩
    · rintro ⟨old, hold, rfl⟩
      obtain ⟨hlt, hoccurs⟩ := mem_counted_iff.mp hold
      exact ⟨(number_lt_count_iff hfloor).mpr hlt, old, hoccurs, rfl⟩

/-- Locals that are used equally often are ranked by number, and the numbers keep their order. -/
theorem ranking_graph : ranking (uses (r.graph graph)) = (ranking (uses graph)).map r.number := by
  have hcount {id : Nat} (hid : id ∈ counted graph) :
      (uses (r.graph graph))[r.number id]?.getD 0 = (uses graph)[id]?.getD 0 := by
    obtain ⟨hlt, -⟩ := mem_counted_iff.mp hid
    rw [getD_uses hlt, getD_uses ((number_lt_count_iff hfloor).mpr hlt), occurring_graph,
      List.count_map_of_injective _ _ hmono.injective]
  have hmap := @List.map_mergeSort _ _
    (fun a b => decide ((uses graph)[b]?.getD 0 ≤ (uses graph)[a]?.getD 0))
    (fun a b => decide ((uses (r.graph graph))[b]?.getD 0 ≤ (uses (r.graph graph))[a]?.getD 0))
    r.number (counted graph) fun a ha b hb => by rw [hcount ha, hcount hb]
  rw [← counted_graph hmono hfloor] at hmap
  exact hmap.symm

/-- Locals occur equally often over both tables, and those that are only in one do not occur. -/
theorem usesFit_graph_iff : UsesFit (r.graph graph) ↔ UsesFit graph := by
  constructor
  · intro hfit id hid
    have hcount := hfit _ ((number_lt_count_iff hfloor).mpr hid)
    rwa [occurring_graph, List.count_map_of_injective _ _ hmono.injective] at hcount
  · intro hfit id hid
    by_cases hoccurs : id ∈ occurring (r.graph graph)
    · rw [occurring_graph] at hoccurs ⊢
      obtain ⟨old, hold, rfl⟩ := List.mem_map.mp hoccurs
      rw [List.count_map_of_injective _ _ hmono.injective]
      exact hfit old ((number_lt_count_iff hfloor).mp hid)
    · rw [List.count_eq_zero.mpr hoccurs]
      decide

theorem alike_useCounts : Alike (fun counts other => counts = uses graph ∧ other = uses (r.graph graph))
    (liftM (useCounts graph)) (liftM (useCounts (r.graph graph))) := by
  have hiff := usesFit_graph_iff hmono hfloor
  rcases useCounts_cases graph with ⟨hfit, huses⟩ | ⟨hfit, hfault⟩ <;>
    rcases useCounts_cases (r.graph graph) with ⟨hfit', huses'⟩ | ⟨hfit', hfault'⟩
  · rw [huses, huses']
    exact .ok ⟨rfl, rfl⟩
  · exact absurd (hiff.mpr hfit) hfit'
  · exact absurd (hiff.mp hfit') hfit
  · rw [hfault, hfault']
    exact .fault ..

omit hmono hfloor

/-- The same homes have been given out to locals over two tables. -/
structure Parallel (r : Rebasing) (first second : Progress) : Prop where
  allocatable : second.file.allocatable = first.file.allocatable
  owned : second.file.owned = first.file.owned
  spillSize : second.spillSize = first.spillSize
  size : ∀ id, r.number id < second.locations.size ↔ id < first.locations.size
  locations : ∀ id, second.locations[r.number id]? = first.locations[id]?

section Parallel

variable {first second : Progress} (hpar : r.Parallel first second)
  (hinj : Function.Injective r.number)
include hpar

theorem Parallel.underLimit (limit : Option Nat) (bank : Nat) :
    underLimit limit second.file bank = underLimit limit first.file bank := by
  cases limit with
  | none => rfl
  | some limit =>
    simp only [Allocation.underLimit, RegisterFile.usage, hpar.owned]
    rfl

include hinj

theorem Parallel.setIfInBounds (id : Nat) (home : Location) :
    (∀ other, r.number other < (second.locations.setIfInBounds (r.number id) (some home)).size ↔
        other < (first.locations.setIfInBounds id (some home)).size) ∧
      ∀ other, (second.locations.setIfInBounds (r.number id) (some home))[r.number other]? =
        (first.locations.setIfInBounds id (some home))[other]? := by
  refine ⟨fun other => ?_, fun other => ?_⟩
  · rw [Array.size_setIfInBounds, Array.size_setIfInBounds, hpar.size]
  · rw [Array.getElem?_setIfInBounds, Array.getElem?_setIfInBounds, hpar.locations]
    simp only [hinj.eq_iff, hpar.size]

theorem Parallel.spill (id : Nat) : r.Parallel (first.spill id) (second.spill (r.number id)) := by
  obtain ⟨hsize, hlocs⟩ := hpar.setIfInBounds hinj id (.spill first.spillSize)
  unfold Progress.spill
  rw [hpar.spillSize]
  exact ⟨hpar.allocatable, hpar.owned, rfl, hsize, hlocs⟩

theorem Parallel.place (limit : Option Nat) (id : Nat) (type : ValueType) :
    Alike r.Parallel (liftM (first.place limit id type))
      (liftM (second.place limit (r.number id) type)) := by
  unfold Progress.place RegisterFile.allocate
  simp only [hpar.underLimit, hpar.allocatable, hpar.owned]
  split
  next =>
    by_cases hbank : 2 ≤ bankOf type
    · simp only [hbank, if_true]
      exact .error rfl
    · simp only [hbank, if_false]
      cases (first.file.allocatable.diff first.file.owned).first? (bankOf type) with
      | none => exact .ok (hpar.spill hinj id)
      | some reg =>
        obtain ⟨hsize, hlocs⟩ := hpar.setIfInBounds hinj id (.register reg)
        exact .ok ⟨rfl, rfl, hpar.spillSize, hsize, hlocs⟩
  next => exact .ok (hpar.spill hinj id)

end Parallel

/-- The same homes over two tables. -/
structure SameHomes (r : Rebasing) (first second : Allocation) : Prop where
  location? : ∀ id, second.location? (r.number id) = first.location? id
  intUsed : second.intUsed = first.intUsed
  vecUsed : second.vecUsed = first.vecUsed
  spillSize : second.spillSize = first.spillSize

theorem liftM_foldlM {σ α : Type} (step : σ → α → Except CompileError σ) (items : List α)
    (state : σ) : (liftM (items.foldlM step state) : Outcome σ) =
      items.foldlM (fun state a => (liftM (step state a) : Outcome σ)) state := by
  induction items generalizing state with
  | nil => rfl
  | cons a rest ih =>
    rw [List.foldlM_cons, List.foldlM_cons]
    cases step state a with
    | error cause => rfl
    | ok next => exact ih next

theorem liftM_bind {α β : Type} (first : Except CompileError α) (next : α → Except CompileError β) :
    (liftM (first >>= next) : Outcome β) =
      (liftM first : Outcome α) >>= fun a => (liftM (next a) : Outcome β) := by
  cases first <;> rfl

theorem parallel_start (hfloor : r.floor ≤ graph.locals.count) (allocatable : RegisterSet) :
    r.Parallel { file := { allocatable }, locations := Array.replicate (uses graph).size none }
      { file := { allocatable }
        locations := Array.replicate (uses (r.graph graph)).size none } where
  allocatable := rfl
  owned := rfl
  spillSize := rfl
  size id := by
    simp only [Array.size_replicate, size_uses]
    exact number_lt_count_iff hfloor
  locations id := by
    simp only [Array.getElem?_replicate, size_uses, number_lt_count_iff hfloor]

theorem hasCalls_graph (graph : Graph) : (r.graph graph).hasCalls = graph.hasCalls := by
  simp only [Graph.hasCalls, operations_graph, List.any_map]
  rfl

include hmono hfloor in
/-- Locals over another table get the same homes, if those that occur have the same types. -/
theorem alike_greedy (limit : Option Nat) (conv : Convention) (htypes : ∀ id ∈ occurring graph,
      (r.graph graph).locals.type? (r.number id) = graph.locals.type? id) :
    Alike r.SameHomes (greedy limit conv graph) (greedy limit conv (r.graph graph)) := by
  unfold greedy
  refine Alike.bind (alike_useCounts hmono hfloor) ?_
  rintro _ _ ⟨rfl, rfl⟩
  unfold ofCounts
  rw [liftM_bind, liftM_bind, liftM_foldlM, liftM_foldlM, ranking_graph hmono hfloor,
    hasCalls_graph]
  refine Alike.bind (Alike.foldlM (fun id hid first second hpar => ?_)
    (parallel_start hfloor _)) fun first second hpar => ?_
  · have hoccurs : id ∈ occurring graph := (mem_counted_iff.mp (List.mem_mergeSort.mp hid)).2
    rw [htypes id hoccurs]
    cases graph.locals.type? id with
    | none => exact .error rfl
    | some type => exact hpar.place hmono.injective limit id type
  · refine .ok ⟨fun id => ?_, ?_, ?_, hpar.spillSize⟩
    · exact congrArg (·.getD none) (hpar.locations id)
    · exact congrArg RegisterSet.gp hpar.owned
    · exact congrArg RegisterSet.vec hpar.owned

end Rebasing

end GraphJit

/-! ## Code over another table of locals

Operations are lowered by the homes of their operands. Where the homes stay the same, so
does the code, whatever the numbers of the locals are.
-/

namespace GraphJit.Rebasing

open Lowering X64 Code

variable {r : Rebasing} {target : Target} {homes : Allocation}

/-! ## Operands -/

theorem alike_sequence_cons {part part' : Emission} {parts parts' : List Emission}
    (hpart : Alike Eq part part')
    (hparts : Alike Eq (Lowering.sequence parts) (Lowering.sequence parts')) :
    Alike Eq (Lowering.sequence (part :: parts)) (Lowering.sequence (part' :: parts')) := by
  rw [sequence_cons, sequence_cons]
  exact hpart.bindTo fun items => hparts.bindTo fun rest => .ok rfl

variable (hhomes : ∀ id, homes.location? (r.number id) = target.allocation.location? id)
include hhomes

theorem alike_location (opnd : Operand) : Alike Eq (target.location opnd)
      ({ target with allocation := homes }.location (r.operand opnd)) := by
  cases opnd with
  | constant bits type => exact .refl _
  | register guest type => exact .refl _
  | localVar id type =>
    simp only [Target.location, Rebasing.operand, hhomes]
    cases target.allocation.location? id with
    | none => exact .error rfl
    | some home => exact .ok rfl

theorem alike_fetch (isFloat : Bool) (opnd : Operand) (dst : HostRegister) :
    Alike Eq (target.fetch isFloat opnd dst)
      ({ target with allocation := homes }.fetch isFloat (r.operand opnd) dst) := by
  simp only [Target.fetch, type_operand, imm?_operand, bits?_operand]
  cases if isFloat then opnd.bits? else opnd.immediate? with
  | some value => exact .refl _
  | none => exact (alike_location hhomes opnd).bindTo fun _ => .refl _

theorem alike_keep (isFloat : Bool) (opnd : Operand) (src : HostRegister) :
    Alike Eq (target.keep isFloat opnd src)
      ({ target with allocation := homes }.keep isFloat (r.operand opnd) src) := by
  simp only [Target.keep, type_operand]
  exact (alike_location hhomes opnd).bindTo fun _ => .refl _

theorem alike_takeStack (dest : Operand) (off : Nat) : Alike Eq (target.takeStack dest off)
      ({ target with allocation := homes }.takeStack (r.operand dest) off) := by
  simp only [Target.takeStack, type_operand]
  refine (Alike.refl _).bindTo fun disp => ?_
  refine alike_sequence_cons (.refl _) (alike_sequence_cons ?_ (.refl _))
  exact (alike_location hhomes dest).bindTo fun _ => .refl _

/-! ## Functions -/

omit hhomes in
/-- The same code is made in the same way from the same homes. -/
theorem alike_of_similar {p : Pairing} {grade : Grade} {n : Nat} {a b : Emission}
    (hsecond : p.second = { p.first with allocation := homes }) (himage : p.image = r.operand)
    (hhomes : ∀ id, homes.location? (r.number id) = p.first.allocation.location? id)
    (h : Similar p grade n a b) : Alike Eq a b := by
  induction h with
  | instr | passed | enter | jump | nil => exact .refl _
  | unsupported cause other => exact .unsupported cause other
  | fetch _ _ => rw [hsecond, himage]; exact alike_fetch hhomes _ _ _
  | keep _ => rw [hsecond, himage]; exact alike_keep hhomes _ _ _
  | takeStack _ _ => rw [hsecond, himage]; exact alike_takeStack hhomes _ _
  | prologue | epilogue => rw [hsecond]; exact .refl _
  | cons _ _ ihfirst ihrest => exact alike_sequence_cons ihfirst ihrest
  | skip _ cond _ _ _ ihbody ihrest =>
    refine alike_sequence_cons (.refl _) ?_
    rw [sequence_append, sequence_append]
    exact ihbody.bindTo fun items =>
      (alike_sequence_cons (.refl _) ihrest).bindTo fun rest => .ok rfl
  | weaken _ _ ih => exact ih

theorem alike_function (graph : Graph) : Alike Eq (target.function graph)
      ({ target with allocation := homes }.function (r.graph graph)) := by
  let p : Pairing :=
    { first := target, second := { target with allocation := homes }, image := r.operand }
  have hside : Alongside p := ⟨rfl, rfl, rfl, r.type_operand⟩
  have hsim := similar_function hside (r.blocks_graph graph)
    fun _ _ => ⟨fun _ _ => trivial, fun _ _ _ => trivial⟩
  exact alike_of_similar rfl rfl hhomes hsim

omit hhomes in
theorem maxCallArguments?_graph (graph : Graph) :
    (r.graph graph).maxCallArguments? = graph.maxCallArguments? := by
  simp only [Graph.maxCallArguments?, operations_graph, List.filter_map, List.map_map,
    Function.comp_def, instruction_operation, sources_operation, List.length_map]

omit hhomes in
theorem alike_generate (graph : Graph) (opts : Options) (args : List ValueType)
    {first second : Allocation} (hsame : r.SameHomes first second) :
    Alike Eq (graph.generate opts first args) ((r.graph graph).generate opts second args) := by
  unfold Graph.generate
  rw [hsame.intUsed, hsame.vecUsed, hsame.spillSize, maxCallArguments?_graph, size_graph]
  refine (Alike.refl _).bindTo fun frame => ?_
  exact Alike.bindTo (alike_function hsame.location? graph) fun items => .refl _

end GraphJit.Rebasing
