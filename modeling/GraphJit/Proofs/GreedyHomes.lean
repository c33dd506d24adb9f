import GraphJit.Proofs.RebasedHomes
import GraphJit.Proofs.SeparateHomes

/-! # Homes of the greedy allocation

The registers in use are those that locals live in, the spill slots fill the spill area, and
a local goes to the spill area only when its bank is full. Since the locals are placed in
the order of their use, those that are spilled are not used more than those in registers.
-/

namespace GraphJit

open Lowering List RegisterSet
open Rebasing (mem_counted_iff)

/-- All locals that occur in a graph have a type. -/
def Graph.LocalsInTable (graph : Graph) : Prop :=
  ∀ op ∈ graph.operations, ∀ opnd ∈ op.operands, ∀ id, opnd.localId? = some id →
    ∃ type, graph.locals.type? id = some type

/-! ## Banks -/

namespace RegisterSet

variable {set other : RegisterSet} {reg : HostRegister} {bank : Nat}
  (hreg : other.contains reg = true)
include hreg

theorem getLsbD_mask_insert {id : Nat} : ((set.insert reg).mask bank).getLsbD id = true ↔
    ⟨bank, id⟩ = reg ∨ (set.mask bank).getLsbD id = true :=
  @contains_insert_iff set other reg ⟨bank, id⟩ hreg

theorem count_insert_le : ((set.insert reg).mask bank).count ≤ (set.mask bank).count + 1 := by
  have hsubset : ((set.insert reg).mask bank).ids ⊆ reg.id :: (set.mask bank).ids := by
    intro id hid
    obtain ⟨hrange, hbit⟩ := mem_filter.mp hid
    rcases (getLsbD_mask_insert hreg).mp hbit with rfl | hbit
    · exact mem_cons_self
    · exact .tail _ (mem_filter.mpr ⟨hrange, hbit⟩)
  exact ((nodup_range.filter _).subperm hsubset).length_le

theorem mask_insert_of_ne (hbank : reg.bank ≠ bank) :
    (set.insert reg).mask bank = set.mask bank := by
  refine BitVec.eq_of_getLsbD_eq fun id _ => Bool.eq_iff_iff.mpr ?_
  rw [getLsbD_mask_insert hreg, or_iff_right]
  rintro rfl
  exact hbank rfl

end RegisterSet

namespace Allocation

variable {graph : Graph} {conv : Convention} {limit : Option Nat} {given : List Nat}
  {progress : Progress} {alloc : Allocation} {id : Nat} {type : ValueType}
  {file next : RegisterFile} {bank : Nat}

/-- Whether a bank is full depends on its registers alone. -/
theorem Full.of_mask_eq (hfull : Full limit file bank)
    (hallocatable : next.allocatable = file.allocatable)
    (howned : next.owned.mask bank = file.owned.mask bank) : Full limit next bank := by
  rcases hfull with hover | hnone
  · left
    cases limit with
    | none => cases hover
    | some most => rwa [underLimit, RegisterFile.usage, howned]
  · right
    rwa [first?, inBank, mask_diff, howned, hallocatable, ← mask_diff]

theorem not_full_of_allocate {owner : Nat} {reg : HostRegister}
    (hunder : underLimit limit file bank = true)
    (halloc : file.allocate bank owner = .ok (reg, next)) : ¬Full limit file bank := by
  rintro (hover | hnone)
  · rw [hunder] at hover
    cases hover
  · rw [RegisterFile.allocate, hnone] at halloc
    split at halloc <;> cases halloc

/-- Homes that are given out with need: the registers in use are homes, the slots leave no gap,
and those who are spilled found their bank full. -/
structure Tight (graph : Graph) (limit : Option Nat) (progress : Progress) : Prop where
  owned : ∀ {reg}, progress.file.owned.contains reg = true →
    ∃ id : Nat, progress.locations[id]?.getD none = some (.register reg)
  filled : ∀ {slot}, spillSlotBytes ∣ slot → slot < progress.spillSize →
    ∃ id : Nat, progress.locations[id]?.getD none = some (.spill slot)
  limited : ∀ most ∈ limit, ∀ bank, (progress.file.owned.mask bank).count ≤ most
  full : ∀ {id : Nat} {slot type}, progress.locations[id]?.getD none = some (.spill slot) →
    graph.locals.type? id = some type → Full limit progress.file (bankOf type)
  frugal : ∀ {id other : Nat} {slot reg type},
    progress.locations[id]?.getD none = some (.spill slot) → graph.locals.type? id = some type →
    progress.locations[other]?.getD none = some (.register reg) → reg.bank = bankOf type →
    (uses graph)[id]?.getD 0 ≤ (uses graph)[other]?.getD 0

theorem Tight.place (htight : Tight graph limit progress)
    (hhomes : Homes graph conv given progress) (hgiven : ∀ other ∈ given, other ≠ id ∧
      (uses graph)[id]?.getD 0 ≤ (uses graph)[other]?.getD 0)
    (hid : id < graph.locals.count) (htype : graph.locals.type? id = some type) {next : Progress}
    (hplace : progress.place limit id type = .ok next) : Tight graph limit next := by
  have hlookup {home : Location} (other : Nat) :
      (progress.locations.setIfInBounds id (some home))[other]?.getD none
        = if other = id then some home else progress.locations[other]?.getD none :=
    getD_setIfInBounds (hhomes.size ▸ hid)
  have hmem {other : Nat} {home : Location} (h : progress.locations[other]?.getD none = some home) :
      other ∈ given := ((hhomes.placed other).mp (Option.isSome_of_eq_some h)).1
  have hold {other : Nat} {home new : Location} (h : progress.locations[other]?.getD none = some home) :
      (progress.locations.setIfInBounds id (some new))[other]?.getD none = some home := by
    rw [hlookup, if_neg (hgiven other (hmem h)).1, h]
  have hstill {home new : Location} :
      (∃ other : Nat, progress.locations[other]?.getD none = some home) →
        ∃ other : Nat, (progress.locations.setIfInBounds id (some new))[other]?.getD none = some home :=
    Exists.imp fun _ => hold
  rcases place_cases limit progress id type with
    ⟨reg, file, hunder, halloc, hnext⟩ | ⟨hfull, hnext⟩
  · obtain ⟨hfile, howned, hbank, hallowed, -⟩ := of_allocate halloc
    have hroom := not_full_of_allocate hunder halloc
    cases hplace.symm.trans hnext
    constructor
    · intro other hother
      rw [howned, contains_insert_iff hallowed] at hother
      rcases hother with rfl | hother
      · exact ⟨id, (hlookup id).trans (if_pos rfl)⟩
      · exact hstill (htight.owned hother)
    · exact fun hslot hlt => hstill (htight.filled hslot hlt)
    · intro most hmost other
      simp only [howned]
      by_cases hsame : reg.bank = other
      · have hle := @RegisterSet.count_insert_le progress.file.owned _ reg other hallowed
        cases hmost
        have hlt := of_decide_eq_true hunder
        rw [← hbank, hsame, RegisterFile.usage] at hlt
        omega
      · rw [mask_insert_of_ne hallowed hsame]
        exact htight.limited most hmost other
    · intro other slot otherType hhome hother
      rw [hlookup] at hhome
      split at hhome
      · cases hhome
      have hfull := htight.full hhome hother
      refine hfull.of_mask_eq hfile ?_
      rw [howned, mask_insert_of_ne hallowed]
      rintro hsame
      exact hroom (hbank ▸ hsame ▸ hfull)
    · intro spilled other slot found otherType hspill hspilledType hother hfound
      rw [hlookup] at hspill hother
      split at hspill
      · cases hspill
      split at hother
      · cases hother
        exact absurd (htight.full hspill hspilledType) (hfound ▸ hbank ▸ hroom)
      · exact htight.frugal hspill hspilledType hother hfound
  · cases hplace.symm.trans hnext
    constructor
    · exact fun hother => hstill (htight.owned hother)
    · intro slot hslot hlt
      by_cases hlast : slot = progress.spillSize
      · exact ⟨id, (hlookup id).trans (by rw [if_pos rfl, hlast])⟩
      · have hlt : slot < progress.spillSize := by
          have haligned := hhomes.aligned
          simp only [Progress.spill, spillSlotBytes] at hlt hslot haligned
          omega
        exact hstill (htight.filled hslot hlt)
    · exact htight.limited
    · intro other slot otherType hhome hother
      change (progress.locations.setIfInBounds id _)[other]?.getD none = _ at hhome
      rw [hlookup] at hhome
      split at hhome
      next hsame =>
        obtain rfl := Option.mem_unique (hsame ▸ hother) htype
        exact hfull
      next => exact htight.full hhome hother
    · intro spilled other slot found otherType hspill hspilledType hother hfound
      change (progress.locations.setIfInBounds id _)[_]?.getD none = _ at hspill hother
      rw [hlookup] at hspill hother
      split at hother
      · cases hother
      split at hspill
      next hsame => exact hsame ▸ (hgiven other (hmem hother)).2
      next => exact htight.frugal hspill hspilledType hother hfound

/-! ## The whole allocation -/

theorem mem_ranking_iff (htable : graph.LocalsInTable) : id ∈ ranking (uses graph) ↔
    ∃ op ∈ graph.operations, ∃ opnd ∈ op.operands, opnd.localId? = some id := by
  refine mem_mergeSort.trans (mem_counted_iff.trans ?_)
  rw [mem_occurring_iff, and_iff_right_of_imp]
  rintro ⟨op, hop, opnd, hopnd, hid⟩
  obtain ⟨type, htype⟩ := htable op hop opnd hopnd id hid
  exact lt_count_of_type? htype

/-- An allocation fails for want of a type alone, once the uses are counted. -/
theorem exists_greedy (htable : graph.LocalsInTable) (hfit : UsesFit graph) (limit : Option Nat)
    (conv : Convention) : ∃ alloc, greedy limit conv graph = .ok alloc := by
  have hhomes : FailsOnly (fun _ => False) (ofCounts limit conv graph (uses graph)) := by
    refine (FailsOnly.foldlM fun progress id hid => ?_).bind fun _ _ => failsOnly_ok _
    obtain ⟨op, hop, opnd, hopnd, hlocal⟩ := (mem_ranking_iff htable).mp hid
    obtain ⟨type, htype⟩ := htable op hop opnd hopnd id hlocal
    simp only [htype]
    obtain ⟨next, hplace⟩ := exists_place limit progress id type
    exact hplace ▸ failsOnly_ok next
  cases hresult : ofCounts limit conv graph (uses graph) with
  | ok alloc => exact ⟨alloc, greedy_eq_ok hfit hresult⟩
  | error cause => exact (hhomes cause hresult).elim

theorem placed_iff (htable : graph.LocalsInTable) (hgreedy : greedy limit conv graph = .ok alloc) :
    (alloc.location? id).isSome = true ↔
      ∃ op ∈ graph.operations, ∃ opnd ∈ op.operands, opnd.localId? = some id :=
  ((housing_of_greedy hgreedy).placed id).trans (mem_ranking_iff htable)

theorem Tight.start (graph : Graph) (limit : Option Nat) (allocatable : RegisterSet) (count : Nat) :
    Tight graph limit { file := { allocatable }, locations := Array.replicate count none } := by
  have hempty (bank : Nat) : ({} : RegisterSet).mask bank = 0 := by simp [RegisterSet.mask]
  constructor
  · intro reg hreg
    rw [RegisterSet.contains, hempty] at hreg
    simp at hreg
  · intro slot _ hslot
    cases hslot
  · intro most _ bank
    rw [hempty]
    exact Nat.zero_le most
  · intro id slot type hhome
    rw [getD_replicate] at hhome
    cases hhome
  · intro id other slot reg type hhome
    rw [getD_replicate] at hhome
    cases hhome

/-- Locals have homes of their own, no more of them than they need. -/
structure Rationed (graph : Graph) (limit : Option Nat) (conv : Convention)
    (alloc : Allocation) : Prop where
  placed : ∀ id, (alloc.location? id).isSome = true ↔
    ∃ op ∈ graph.operations, ∃ opnd ∈ op.operands, opnd.localId? = some id
  distinct : ∀ {id other home}, id ≠ other → alloc.location? id = some home →
    alloc.location? other ≠ some home
  bank : ∀ {id reg}, alloc.location? id = some (.register reg) →
    ∃ type, graph.locals.type? id = some type ∧ reg.bank = bankOf type
  allocatable : ∀ {id reg}, alloc.location? id = some (.register reg) →
    (conv.allocatable graph.hasCalls).contains reg = true ∧
      reg ∉ scratchNames ∧ reg ∉ conv.gpArguments ++ conv.vecArguments ∧
      (graph.hasCalls = true → conv.calleeSaved.contains reg = true)
  limited : ∀ most ∈ limit, ∀ bank, (alloc.used.mask bank).count ≤ most
  used : ∀ reg, alloc.used.contains reg = true ↔
    ∃ id, alloc.location? id = some (.register reg)
  slots : ∀ slot, (∃ id, alloc.location? id = some (.spill slot)) ↔
    spillSlotBytes ∣ slot ∧ slot < alloc.spillSize
  spillSize : spillSlotBytes ∣ alloc.spillSize ∧ alloc.spillSize < 2 ^ 31
  frugal : ∀ {id other slot reg type}, alloc.location? id = some (.spill slot) →
    graph.locals.type? id = some type → alloc.location? other = some (.register reg) →
    reg.bank = bankOf type → (occurring graph).count id ≤ (occurring graph).count other

theorem greedy_rations (htable : graph.LocalsInTable) (hfew : graph.locals.count < 2 ^ 28)
    (hfit : UsesFit graph) (limit : Option Nat) (conv : Convention) :
    ∃ alloc, greedy limit conv graph = .ok alloc ∧
      Rationed graph limit conv alloc := by
  obtain ⟨alloc, hgreedy⟩ := exists_greedy htable hfit limit conv
  have hhousing := housing_of_greedy hgreedy
  obtain ⟨hregisters, hslots⟩ := drawn_of_greedy hgreedy
  have hcounted {id : Nat} {home : Location} (hhome : alloc.location? id = some home) :
      (uses graph)[id]?.getD 0 = (occurring graph).count id := by
    have hranked := (hhousing.placed id).mp (Option.isSome_of_eq_some hhome)
    exact getD_uses ((lt_of_mem_ranking hranked).trans_eq (size_uses graph))
  refine ⟨alloc, hgreedy, ?_⟩
  obtain ⟨done, ⟨hhomes, htight⟩, rfl⟩ := of_greedy
    (fun given progress => Homes graph conv given progress ∧ Tight graph limit progress)
    ⟨.start graph conv, .start ..⟩
    (fun hholds hgiven hid htype _ hplace =>
      ⟨hholds.1.place hid htype hplace, hholds.2.place hholds.1 hgiven hid htype hplace⟩) hgreedy
  constructor
  · exact fun id => placed_iff htable hgreedy
  · intro id other home hne hhome hother
    have hapart := apart_of_greedy hgreedy hne hhome hother
    cases home with
    | register reg => exact hapart rfl
    | spill slot => rcases hapart with h | h <;> omega
  · intro id reg hhome
    obtain ⟨type, htype, hbank, -⟩ := hhousing.inRegister hhome
    exact ⟨type, htype, hbank⟩
  · intro id reg hhome
    have hallowed := (hregisters hhome).2
    obtain ⟨-, hscratch, hargument⟩ := of_allocatable hallowed
    refine ⟨hallowed, hscratch, hargument, fun hcalls => ?_⟩
    rw [hcalls, Convention.allocatable, if_pos rfl, contains_inter, Bool.and_eq_true] at hallowed
    exact hallowed.2
  · exact htight.limited
  · exact fun reg => ⟨htight.owned, fun hid => hid.elim fun _ hhome => (hregisters hhome).1⟩
  · intro slot
    constructor
    · rintro ⟨id, hhome⟩
      exact ⟨hslots hhome, Nat.lt_of_lt_of_le (Nat.lt_add_of_pos_right (by decide))
        (hhousing.inSlot hhome)⟩
    · exact fun hslot => htight.filled hslot.1 hslot.2
  · refine ⟨hhomes.aligned, hhousing.spillSize.trans_lt ?_⟩
    rw [spillSlotBytes]
    omega
  · intro id other slot reg type hhome htype hother hbank
    rw [← hcounted hhome, ← hcounted hother]
    exact htight.frugal hhome htype hother hbank

/-- Two integer locals for one register, and a float. -/
def crowded : Graph where
  blocks := #[
    { index := 0
      operations := [.copy (.localVar 0 .i64) (.constant 5 .i64),
        .copy (.localVar 3 .i64) (.localVar 0 .i64),
        .copy (.localVar 1 .f64) (.constant 0 .f64)] }]
  locals := ⟨#[some .i64, some .f64, none, some .i64]⟩

theorem greedy_rations_crowded : crowded.LocalsInTable ∧ crowded.locals.count < 2 ^ 28 ∧
    UsesFit crowded ∧ ∃ alloc, greedy (some 1) .sysv crowded = .ok alloc ∧
      Rationed crowded (some 1) .sysv alloc := by
  have hall : ∀ op ∈ crowded.operations, ∀ opnd ∈ op.operands, ∀ id ∈ opnd.localId?,
      (crowded.locals.type? id).isSome = true := by decide
  have htable : crowded.LocalsInTable := fun op hop opnd hopnd id hid =>
    Option.isSome_iff_exists.mp (hall op hop opnd hopnd id hid)
  have hfit : UsesFit crowded := by decide
  exact ⟨htable, by decide, hfit, greedy_rations htable (by decide) hfit (some 1) .sysv⟩

end Allocation

end GraphJit
