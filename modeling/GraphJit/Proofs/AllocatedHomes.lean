import GraphJit.Proofs.HomeAccess

/-! # Allocated homes

Which locals get a home depends on the graph alone: those that occur. Which home it
is depends on the number of registers. A register is one of the bank of the local's
declared type, and a spill slot lies inside the spill area. With bounds on the
numbers of locals and arguments all offsets in the frame are within range.
-/

namespace GraphJit

open X64 List GraphJit.Frame

/-! ## Registers and homes -/

namespace RegisterSet

variable {a b : RegisterSet} {reg other : HostRegister}

/-- An operation on sets acts on the masks of each bank. -/
theorem mask_pointwise {combine : Mask → Mask → Mask} (hzero : combine 0 0 = 0) (a b : RegisterSet)
    (bank : Nat) : mask ⟨combine a.gp b.gp, combine a.vec b.vec⟩ bank
      = combine (a.mask bank) (b.mask bank) := by
  unfold mask
  split
  · rfl
  · split
    · rfl
    · exact hzero.symm

theorem contains_union (a b : RegisterSet) (reg : HostRegister) :
    (a.union b).contains reg = (a.contains reg || b.contains reg) := by
  rw [contains, union, mask_pointwise BitVec.or_zero, BitVec.getLsbD_or]
  rfl

theorem contains_inter (a b : RegisterSet) (reg : HostRegister) :
    (a.inter b).contains reg = (a.contains reg && b.contains reg) := by
  rw [contains, inter, mask_pointwise BitVec.and_zero, BitVec.getLsbD_and]
  rfl

theorem mask_diff (a b : RegisterSet) (bank : Nat) :
    (a.diff b).mask bank = a.mask bank &&& ~~~b.mask bank :=
  @mask_pointwise (fun a b => a &&& ~~~b) (by decide) a b bank

theorem contains_diff (a b : RegisterSet) (reg : HostRegister) :
    (a.diff b).contains reg = (a.contains reg && !b.contains reg) := by
  rw [contains, mask_diff, BitVec.getLsbD_and, BitVec.getLsbD_not]
  grind [contains]

/-- A register that is a member of some set is the one member of its own. -/
theorem contains_singleton_iff (h : a.contains reg = true) :
    (singleton reg).contains other = true ↔ other = reg := by
  have hid : reg.id < 32 := BitVec.lt_of_getLsbD h
  obtain ⟨bank, id⟩ := reg
  obtain ⟨otherBank, otherId⟩ := other
  rw [contains, mask] at h
  simp only [contains, mask, singleton, HostRegister.mk.injEq]
  grind

theorem contains_insert_iff (h : b.contains reg = true) :
    (a.insert reg).contains other = true ↔ other = reg ∨ a.contains other = true := by
  rw [insert, contains_union, Bool.or_eq_true, contains_singleton_iff h, or_comm]

theorem mem_inBank_iff {bank : Nat} : reg ∈ a.inBank bank ↔
    reg.bank = bank ∧ a.contains reg = true := by
  simp only [inBank, Mask.ids, mem_map, mem_filter, mem_range, contains]
  constructor
  · rintro ⟨id, ⟨-, hbit⟩, rfl⟩
    exact ⟨rfl, hbit⟩
  · rintro ⟨rfl, hbit⟩
    exact ⟨reg.id, ⟨BitVec.lt_of_getLsbD hbit, hbit⟩, rfl⟩

end RegisterSet

namespace Lowering

/-- Two homes that have no bits in common. -/
def Apart : Location → Location → Prop
  | .register name, .register other => name ≠ other
  | .spill slot, .spill other => slot + 8 ≤ other ∨ other + 8 ≤ slot
  | _, _ => True

theorem Apart.symm {home other : Location} (h : Apart home other) : Apart other home := by
  cases home with
  | register name =>
    cases other with
    | register otherName => exact Ne.symm h
    | spill slot => trivial
  | spill slot =>
    cases other with
    | register name => trivial
    | spill otherSlot => exact Or.symm h

end Lowering

theorem lt_count_of_type? {table : LocalTable} {id : Nat} {type : ValueType}
    (htype : table.type? id = some type) : id < table.count := by
  by_contra hid
  have hnone : table.types[id]? = none := Array.getElem?_eq_none (Nat.not_lt.mp hid)
  simp [LocalTable.type?, hnone] at htype

namespace Allocation

open Lowering (Apart)

/-! ## Use counts and ranking -/

/-- The locals that occur in a graph, once for each time. -/
def occurring (graph : Graph) : List Nat :=
  (graph.operations.flatMap Operation.operands).filterMap Operand.localId?

theorem mem_occurring_iff {graph : Graph} {id : Nat} : id ∈ occurring graph ↔
    ∃ op ∈ graph.operations, ∃ opnd ∈ op.operands, opnd.localId? = some id := by
  simp only [occurring, mem_filterMap, mem_flatMap]
  constructor
  · rintro ⟨opnd, ⟨op, hop, hopnd⟩, hid⟩
    exact ⟨op, hop, opnd, hopnd, hid⟩
  · rintro ⟨op, hop, opnd, hopnd, hid⟩
    exact ⟨opnd, ⟨op, hop, hopnd⟩, hid⟩

/-- Count one operand, without a bound. -/
def tally (counts : Array Nat) (opnd : Operand) : Array Nat :=
  opnd.localId?.elim counts fun id => counts.setIfInBounds id (counts[id]?.getD 0 + 1)

theorem getElem?_foldl_tally (opnds : List Operand) (counts : Array Nat) (id : Nat) :
    (opnds.foldl tally counts)[id]? =
      counts[id]?.map (· + (opnds.filterMap Operand.localId?).count id) := by
  induction opnds generalizing counts with
  | nil => simp
  | cons opnd rest ih =>
    rw [foldl_cons, ih, tally]
    cases hid : opnd.localId? with
    | none => simp [hid]
    | some other =>
      simp only [filterMap_cons, hid, Option.elim_some, Array.getElem?_setIfInBounds, count_cons]
      by_cases hsame : other = id
      · by_cases hlt : id < counts.size <;> simp [hsame, hlt, Nat.add_assoc, Nat.add_comm 1]
      · simp [hsame]

/-- How often the locals of the table occur. -/
def uses (graph : Graph) : Array Nat :=
  (graph.operations.flatMap Operation.operands).foldl tally (Array.replicate graph.locals.count 0)

theorem getElem?_uses (graph : Graph) (id : Nat) : (uses graph)[id]? =
    if id < graph.locals.count then some ((occurring graph).count id) else none := by
  rw [uses, getElem?_foldl_tally, Array.getElem?_replicate]
  split
  · simp [occurring]
  · rfl

theorem getD_uses {graph : Graph} {id : Nat} (hid : id < graph.locals.count) :
    (uses graph)[id]?.getD 0 = (occurring graph).count id := by
  rw [getElem?_uses, if_pos hid]
  rfl

theorem size_uses (graph : Graph) : (uses graph).size = graph.locals.count := by
  refine List.foldlRecOn (motive := fun counts : Array Nat => counts.size = graph.locals.count)
    _ _ Array.size_replicate fun counts hcounts opnd _ => ?_
  unfold tally
  cases opnd.localId? with
  | none => exact hcounts
  | some id => exact Array.size_setIfInBounds.trans hcounts

/-- Counting goes through unless a count grows beyond its word. -/
theorem foldlM_noteUse (opnds : List Operand) {counts : Array Nat}
    (hwords : ∀ id : Nat, counts[id]?.getD 0 < twoPow 32) :
    (∀ id : Nat, (opnds.foldl tally counts)[id]?.getD 0 < twoPow 32) ∧
        opnds.foldlM noteUse counts = .ok (opnds.foldl tally counts) ∨
      (∃ id : Nat, twoPow 32 ≤ (opnds.foldl tally counts)[id]?.getD 0) ∧
        opnds.foldlM noteUse counts = .error .sizeOverflow := by
  induction opnds generalizing counts with
  | nil => exact .inl ⟨hwords, rfl⟩
  | cons opnd rest ih =>
    cases hid : opnd.localId? with
    | none =>
      have hnote : noteUse counts opnd = .ok counts := by rw [noteUse, hid]
      rw [foldlM_cons, foldl_cons, hnote, tally, hid]
      exact ih hwords
    | some id =>
      by_cases hfits : counts[id]?.getD 0 + 1 < twoPow 32
      · have hnote : noteUse counts opnd = .ok (tally counts opnd) := by
          simp [noteUse, tally, hid, wordSize, hfits]
        rw [foldlM_cons, foldl_cons, hnote]
        refine ih fun other => ?_
        simp only [tally, hid, Option.elim_some, Array.getElem?_setIfInBounds]
        split
        · split
          · exact hfits
          · decide
        · exact hwords other
      · refine .inr ⟨⟨id, ?_⟩, ?_⟩
        · rw [getElem?_foldl_tally]
          cases hcount : counts[id]? with
          | none => simp [hcount, twoPow] at hfits
          | some count =>
            simp only [hcount, Option.getD_some, Nat.not_lt] at hfits
            simp only [filterMap_cons, hid, count_cons_self, Option.map_some, Option.getD_some]
            omega
        · rw [foldlM_cons, noteUse, hid]
          simp only [wordSize, if_neg hfits]
          rfl

/-- The uses of each local can be counted in a word of 32 bits. -/
def UsesFit (graph : Graph) : Prop :=
  ∀ id < graph.locals.count, (occurring graph).count id < twoPow 32

instance (graph : Graph) : Decidable (UsesFit graph) :=
  inferInstanceAs (Decidable (∀ id < _, _ < _))

theorem useCounts_cases (graph : Graph) : UsesFit graph ∧ useCounts graph = .ok (uses graph) ∨
    ¬UsesFit graph ∧ useCounts graph = .error .sizeOverflow := by
  have hfit : UsesFit graph ↔ ∀ id : Nat, (uses graph)[id]?.getD 0 < twoPow 32 := by
    refine forall_congr' fun id => ?_
    rw [getElem?_uses]
    split <;> simp [*, twoPow]
  rw [hfit, not_forall]
  simp only [Nat.not_lt]
  refine foldlM_noteUse _ fun id => ?_
  rw [Array.getElem?_replicate]
  split <;> decide

theorem useCounts_eq {graph : Graph} (hfit : UsesFit graph) : useCounts graph = .ok (uses graph) :=
  (useCounts_cases graph).elim And.right fun hcases => absurd hfit hcases.1

theorem greedy_eq_ok {limit : Option Nat} {conv : Convention} {graph : Graph}
    {alloc : Allocation} (hfit : UsesFit graph)
    (hhomes : ofCounts limit conv graph (uses graph) = .ok alloc) :
    greedy limit conv graph = .ok alloc := by
  unfold greedy
  rw [useCounts_eq hfit]
  change (ofCounts limit conv graph (uses graph) : Outcome Allocation) = _
  rw [hhomes]
  rfl

theorem eq_uses_of_useCounts {graph : Graph} {counts : Array Nat}
    (hcounts : useCounts graph = .ok counts) : counts = uses graph := by
  rcases useCounts_cases graph with ⟨-, huses⟩ | ⟨-, hfault⟩
  · exact Except.ok.inj (hcounts.symm.trans huses)
  · rw [hfault] at hcounts
    cases hcounts

theorem lt_of_mem_ranking {counts : Array Nat} {id : Nat} (hid : id ∈ ranking counts) :
    id < counts.size := by
  have hfiltered := mem_filter.mp (mem_mergeSort.mp hid)
  exact mem_range.mp hfiltered.1

theorem length_ranking_le (counts : Array Nat) : (ranking counts).length ≤ counts.size := by
  rw [ranking, length_mergeSort]
  refine Nat.le_trans (length_filter_le ..) ?_
  rw [length_range]

/-! ## Giving out homes -/

variable {bank : Nat}

/-- The registers that are given to locals exist. -/
theorem lt_of_allocatable {conv : Convention} {hasCalls : Bool} {id : Nat}
    (hbit : ((conv.allocatable hasCalls).mask bank).getLsbD id = true) : id < 16 := by
  have hmasks : (∀ i : Fin 32, (conv.allocatable hasCalls).gp.getLsbD i = true → i < 16) ∧
      ∀ i : Fin 32, (conv.allocatable hasCalls).vec.getLsbD i = true → i < 16 := by
    cases conv <;> cases hasCalls <;> decide +kernel
  have hword : id < 32 := BitVec.lt_of_getLsbD hbit
  rw [RegisterSet.mask] at hbit
  split at hbit
  · exact hmasks.1 ⟨id, hword⟩ hbit
  · split at hbit
    · exact hmasks.2 ⟨id, hword⟩ hbit
    · simp at hbit

theorem of_allocate {file next : RegisterFile} {owner : Nat} {reg : HostRegister}
    (halloc : file.allocate bank owner = .ok (reg, next)) :
    next.allocatable = file.allocatable ∧ next.owned = file.owned.insert reg ∧
      reg.bank = bank ∧ file.allocatable.contains reg = true ∧
      file.owned.contains reg = false := by
  rw [RegisterFile.allocate] at halloc
  split at halloc
  next => cases halloc
  next hbank =>
    split at halloc
    next => cases halloc
    next found hfirst =>
      cases halloc
      obtain ⟨hbank, hfree⟩ := RegisterSet.mem_inBank_iff.mp (mem_of_head? hfirst)
      rw [RegisterSet.contains_diff, Bool.and_eq_true, Bool.not_eq_true'] at hfree
      exact ⟨rfl, rfl, hbank, hfree⟩

/-- A home that a local may have: a register of its bank in use, or a slot of the spill area. -/
def Proper (graph : Graph) (progress : Progress) (id : Nat) : Location → Prop
  | .register reg =>
    (∃ type, graph.locals.type? id = some type ∧ reg.bank = bankOf type) ∧
      progress.file.allocatable.contains reg = true ∧
      progress.file.owned.contains reg = true
  | .spill slot => spillSlotBytes ∣ slot ∧ slot + spillSlotBytes ≤ progress.spillSize

/-- The homes given to some locals so far. -/
structure Homes (graph : Graph) (conv : Convention) (given : List Nat)
    (progress : Progress) : Prop where
  allocatable : progress.file.allocatable = conv.allocatable graph.hasCalls
  size : progress.locations.size = graph.locals.count
  placed : ∀ id : Nat, (progress.locations[id]?.getD none).isSome = true ↔
    id ∈ given ∧ id < graph.locals.count
  proper : ∀ {id : Nat} {home}, progress.locations[id]?.getD none = some home →
    Proper graph progress id home
  apart : ∀ {id other : Nat} {home otherHome}, id ≠ other →
    progress.locations[id]?.getD none = some home → progress.locations[other]?.getD none = some otherHome →
      Apart home otherHome
  aligned : spillSlotBytes ∣ progress.spillSize
  spillSize : progress.spillSize ≤ spillSlotBytes * given.length

variable {graph : Graph} {conv : Convention} {limit : Option Nat} {given : List Nat}
  {progress : Progress} {id : Nat} {type : ValueType}

theorem Homes.start (graph : Graph) (conv : Convention) : Homes graph conv []
      { file := { allocatable := conv.allocatable graph.hasCalls }
        locations := Array.replicate (uses graph).size none } := by
  constructor
  · rfl
  · rw [Array.size_replicate, size_uses]
  · intro id
    simp [getD_replicate]
  · intro id home h
    rw [getD_replicate] at h
    cases h
  · intro id other home otherHome _ h
    rw [getD_replicate] at h
    cases h
  · exact Nat.dvd_zero _
  · exact Nat.zero_le _

/-- No more register of a bank is handed out. -/
def Full (limit : Option Nat) (file : RegisterFile) (bank : Nat) : Prop :=
  underLimit limit file bank = false ∨ (file.allocatable.diff file.owned).first? bank = none

/-- A local gets a register unless its bank is full. -/
theorem place_cases (limit : Option Nat) (progress : Progress) (id : Nat) (type : ValueType) :
    (∃ reg file, underLimit limit progress.file (bankOf type) = true ∧
      progress.file.allocate (bankOf type) id = .ok (reg, file) ∧
      progress.place limit id type = .ok { progress with
        file
        locations := progress.locations.setIfInBounds id (some (.register reg)) }) ∨
    Full limit progress.file (bankOf type) ∧
      progress.place limit id type = .ok (progress.spill id) := by
  have hbank : ¬2 ≤ bankOf type := by
    unfold bankOf
    split <;> decide
  simp only [Progress.place]
  split
  next hunder =>
    cases hfirst : (progress.file.allocatable.diff progress.file.owned).first? (bankOf type) with
    | none =>
      refine .inr ⟨.inr hfirst, ?_⟩
      rw [RegisterFile.allocate, if_neg hbank, hfirst]
    | some reg =>
      obtain ⟨file, halloc⟩ : ∃ file, progress.file.allocate (bankOf type) id = .ok (reg, file) := by
        rw [RegisterFile.allocate, if_neg hbank, hfirst]
        exact ⟨_, rfl⟩
      exact .inl ⟨reg, file, hunder, halloc, by rw [halloc]⟩
  next hover => exact .inr ⟨.inl (Bool.not_eq_true _ ▸ hover), rfl⟩

theorem exists_place (limit : Option Nat) (progress : Progress) (id : Nat) (type : ValueType) :
    ∃ next, progress.place limit id type = .ok next := by
  rcases place_cases limit progress id type with ⟨_, _, -, -, hplace⟩ | ⟨-, hplace⟩ <;>
    exact ⟨_, hplace⟩

/-- What giving a home to a local does. The earlier homes stay, and are apart from it. -/
theorem place_keeps {next : Progress} (hplace : progress.place limit id type = .ok next)
    (htype : graph.locals.type? id = some type) (haligned : spillSlotBytes ∣ progress.spillSize) :
    ∃ home, next.file.allocatable = progress.file.allocatable ∧
      next.locations = progress.locations.setIfInBounds id (some home) ∧
      (next.spillSize = progress.spillSize ∨
        next.spillSize = progress.spillSize + spillSlotBytes) ∧
      Proper graph next id home ∧ ∀ {other found}, Proper graph progress other found →
        Proper graph next other found ∧ Apart home found := by
  rcases place_cases limit progress id type with ⟨reg, file, -, halloc, hnext⟩ | ⟨-, hnext⟩
  · obtain ⟨hfile, howned, hbank, hallow, hfree⟩ := of_allocate halloc
    cases hplace.symm.trans hnext
    refine ⟨_, hfile, rfl, .inl rfl, ⟨⟨type, htype, hbank⟩, hfile ▸ hallow,
      howned ▸ (RegisterSet.contains_insert_iff hallow).mpr (.inl rfl)⟩,
      fun {other found} hfound => ?_⟩
    cases found with
    | spill slot => exact ⟨hfound, trivial⟩
    | register name =>
      refine ⟨⟨hfound.1, hfile ▸ hfound.2.1,
        howned ▸ (RegisterSet.contains_insert_iff hallow).mpr (.inr hfound.2.2)⟩, ?_⟩
      -- the new register was free, and the others are taken
      rintro rfl
      rw [hfound.2.2] at hfree
      cases hfree
  · cases hplace.symm.trans hnext
    refine ⟨_, rfl, rfl, .inr rfl, ⟨haligned, Nat.le_refl _⟩, fun {other found} hfound => ?_⟩
    cases found with
    | register reg => exact ⟨hfound, trivial⟩
    | spill slot => exact ⟨⟨hfound.1, hfound.2.trans (Nat.le_add_right ..)⟩, .inr hfound.2⟩

/-- One more home. -/
theorem Homes.place (hhomes : Homes graph conv given progress) (hid : id < graph.locals.count)
    (htype : graph.locals.type? id = some type) {next : Progress}
    (hplace : progress.place limit id type = .ok next) : Homes graph conv (id :: given) next := by
  obtain ⟨home, hfile, hlocs, hsize, hproper, hkept⟩ := place_keeps hplace htype hhomes.aligned
  -- only the local that is placed gets another home
  have hlookup (other : Nat) : next.locations[other]?.getD none
      = if other = id then some home else progress.locations[other]?.getD none := by
    rw [hlocs]
    exact getD_setIfInBounds (hhomes.size ▸ hid)
  constructor
  · exact hfile.trans hhomes.allocatable
  · rw [hlocs, Array.size_setIfInBounds, hhomes.size]
  · intro other
    rw [hlookup]
    by_cases hsame : other = id
    · simp [hsame, hid]
    · simp [hsame, hhomes.placed other]
  · intro other found hfound
    rw [hlookup] at hfound
    split at hfound
    next hsame =>
      cases hfound
      exact hsame ▸ hproper
    next => exact (hkept (hhomes.proper hfound)).1
  · intro first second firstHome secondHome hne hfirst hsecond
    rw [hlookup] at hfirst hsecond
    split at hfirst
    next hsame =>
      cases hfirst
      rw [if_neg fun h => hne (hsame.trans h.symm)] at hsecond
      exact (hkept (hhomes.proper hsecond)).2
    next =>
      split at hsecond
      next =>
        cases hsecond
        exact (hkept (hhomes.proper hfirst)).2.symm
      next => exact hhomes.apart hne hfirst hsecond
  · rcases hsize with hsize | hsize <;> rw [hsize]
    · exact hhomes.aligned
    · exact Nat.dvd_add hhomes.aligned (Nat.dvd_refl _)
  · have hbefore := hhomes.spillSize
    rw [length_cons, Nat.mul_succ]
    omega

/-- Where the locals of an allocated graph live. -/
structure Housing (graph : Graph) (alloc : Allocation) : Prop where
  placed : ∀ id, (alloc.location? id).isSome = true ↔ id ∈ ranking (uses graph)
  inRegister : ∀ {id reg}, alloc.location? id = some (.register reg) →
    ∃ type, graph.locals.type? id = some type ∧ reg.bank = bankOf type ∧ reg.id < 16
  inSlot : ∀ {id slot}, alloc.location? id = some (.spill slot) →
    slot + spillSlotBytes ≤ alloc.spillSize
  spillSize : alloc.spillSize ≤ spillSlotBytes * graph.locals.count

theorem pairwise_ranking (counts : Array Nat) :
    (ranking counts).Pairwise fun a b => a ≠ b ∧ counts[b]?.getD 0 ≤ counts[a]?.getD 0 := by
  have hnodup : (ranking counts).Nodup :=
    (mergeSort_perm _ _).nodup_iff.mpr (nodup_range.filter _)
  refine hnodup.and ((pairwise_mergeSort ?_ ?_ _).imp of_decide_eq_true)
  · simpa using fun a b c hab hbc => Nat.le_trans hbc hab
  · simpa using fun a b => Nat.le_total _ _

/-- What holds at the start and is kept by each home holds of an allocation. Homes are given
once, and not to a local that is used more than one before it. -/
theorem of_greedy {alloc : Allocation} (holds : List Nat → Progress → Prop) (hstart : holds []
      { file := { allocatable := conv.allocatable graph.hasCalls }
        locations := Array.replicate (uses graph).size none })
    (hplace : ∀ {given progress id type}, holds given progress → (∀ other ∈ given, other ≠ id ∧
        (uses graph)[id]?.getD 0 ≤ (uses graph)[other]?.getD 0) →
      id < graph.locals.count → graph.locals.type? id = some type → ∀ {next},
      progress.place limit id type = .ok next → holds (id :: given) next)
    (hgreedy : greedy limit conv graph = .ok alloc) :
    ∃ done, holds (ranking (uses graph)).reverse done ∧
      { locations := done.locations, intUsed := done.file.owned.gp
        vecUsed := done.file.owned.vec, spillSize := done.spillSize } = alloc := by
  obtain ⟨counts, hcounts, hhomes⟩ := of_bind hgreedy
  obtain rfl := eq_uses_of_useCounts (liftM_eq_ok hcounts)
  obtain ⟨done, hdone, hresult⟩ := of_bind (of_liftM_eq_ok hhomes)
  refine ⟨done, ?_, Except.ok.inj hresult⟩
  have hinside (id : Nat) (hid : id ∈ ranking (uses graph)) : id < graph.locals.count :=
    (lt_of_mem_ranking hid).trans_eq (size_uses graph)
  -- the induction is on what is still to be placed, after some given ones
  have hfold : ∀ {step : Progress → Nat → Except CompileError Progress}, (∀ {progress id next},
      step progress id = .ok next → ∃ type, graph.locals.type? id = some type ∧
        progress.place limit id type = .ok next) → ∀ (ids given : List Nat) (progress : Progress),
      (given.reverse ++ ids).Pairwise (fun a b => a ≠ b ∧
        (uses graph)[b]?.getD 0 ≤ (uses graph)[a]?.getD 0) →
      (∀ id ∈ ids, id < graph.locals.count) → holds given progress →
      ids.foldlM step progress = .ok done → holds (ids.reverse ++ given) done := by
    intro step hstep ids
    induction ids with
    | nil =>
      intro given progress _ _ hholds hfold
      cases hfold
      exact hholds
    | cons id ids ih =>
      intro given progress hsorted hids hholds hfold
      rw [forall_mem_cons] at hids
      rw [foldlM_cons] at hfold
      obtain ⟨next, hnext, hfold⟩ := of_bind hfold
      obtain ⟨type, htype, hhome⟩ := hstep hnext
      rw [reverse_cons, append_assoc]
      refine ih (id :: given) _ (by simpa using hsorted) hids.2
        (hplace hholds ?_ hids.1 htype hhome) hfold
      intro other hother
      exact (pairwise_append.mp hsorted).2.2 other (mem_reverse.mpr hother) id mem_cons_self
  have hlast := hfold ?_ (ranking (uses graph)) [] _ (pairwise_ranking _) hinside hstart hdone
  · simpa using hlast
  · intro progress id next hnext
    split at hnext
    next type htype => exact ⟨type, htype, hnext⟩
    next => cases hnext

variable {alloc : Allocation} (hgreedy : greedy limit conv graph = .ok alloc)
include hgreedy

theorem homes_of_greedy : ∃ done, Homes graph conv (ranking (uses graph)).reverse done ∧
      { locations := done.locations, intUsed := done.file.owned.gp
        vecUsed := done.file.owned.vec, spillSize := done.spillSize } = alloc :=
  of_greedy _ (.start graph conv) (fun hhomes _ => hhomes.place) hgreedy

theorem housing_of_greedy : Housing graph alloc := by
  obtain ⟨done, hhomes, rfl⟩ := homes_of_greedy hgreedy
  constructor
  · intro id
    refine (hhomes.placed id).trans ?_
    rw [mem_reverse]
    exact and_iff_left_of_imp fun hid => (lt_of_mem_ranking hid).trans_eq (size_uses graph)
  · intro id reg hhome
    obtain ⟨⟨type, htype, hbank⟩, hallow, -⟩ := hhomes.proper hhome
    rw [hhomes.allocatable] at hallow
    exact ⟨type, htype, hbank, lt_of_allocatable hallow⟩
  · intro id slot hhome
    exact (hhomes.proper hhome).2
  · refine hhomes.spillSize.trans (Nat.mul_le_mul_left _ ?_)
    rw [length_reverse]
    exact (length_ranking_le _).trans_eq (size_uses graph)

end Allocation

/-! ## Frames -/

/-- A number of locals or arguments for which no offset leaves its range. -/
def mostCounted : Nat := twoPow 20

theorem Mask.count_le (mask : Mask) : mask.count ≤ 32 :=
  (length_filter_le ..).trans (length_range ..).le

variable {value off : Nat} {maxArguments : Option Nat} {frame : Frame} {types : List ValueType}

theorem wordSize_eq_ok (hvalue : value < twoPow 32) : wordSize value = .ok value := if_pos hvalue

theorem wordSize_bind {α : Type} (hvalue : value < twoPow 32) (next : Nat → Except Fault α) :
    wordSize value >>= next = next value := by
  rw [wordSize_eq_ok hvalue]
  rfl

/-- Slots for the outgoing arguments of all calls. -/
def argumentSlots (maxArguments : Option Nat) : Nat := match maxArguments with
  | some count => max count leastArguments % twoPow 32
  | none => 0

theorem argumentSlots_some {count : Nat} (hcount : count < twoPow 32) :
    argumentSlots (some count) = max count 4 :=
  Nat.mod_eq_of_lt (Nat.max_lt.mpr ⟨hcount, by decide⟩)

theorem argumentSlots_le (hargs : ∀ count ∈ maxArguments, count < mostCounted) :
    argumentSlots maxArguments ≤ mostCounted := by
  rcases maxArguments with - | count
  · exact Nat.zero_le _
  · have hleast : leastArguments ≤ mostCounted := by decide
    exact (Nat.mod_le _ _).trans (Nat.max_le.mpr ⟨(hargs count rfl).le, hleast⟩)

/-- Bounded sizes make a frame, with room to address all of it. -/
theorem exists_compute (conv : Convention) (intUsed vecUsed : Mask) {spill : Nat}
    (hspill : spill ≤ 8 * mostCounted) (hargs : ∀ count ∈ maxArguments, count < mostCounted) :
    ∃ frame, Frame.compute conv intUsed vecUsed spill maxArguments = .ok frame ∧
      frame.callArgs < twoPow 28 ∧ frame.totalSize < twoPow 29 := by
  have hmost : mostCounted = 1048576 := rfl
  have hword : twoPow 32 = 4294967296 := rfl
  have hslots := argumentSlots_le hargs
  unfold Frame.compute
  change ∃ frame, (wordSize _ >>= fun fixed =>
    wordSize (argumentSlots maxArguments * argumentBytes) >>= fun _ => _) = .ok frame ∧ _
  generalize hgp : conv.calleeSaved.gp &&& intUsed = intSaved
  generalize hvec : conv.calleeSaved.vec &&& vecUsed = vecSaved
  have hpushed := Mask.count_le intSaved
  have hstored := Mask.count_le vecSaved
  simp only [wordBytes, vectorBytes, returnAddressBytes, argumentBytes]
  -- four sums are checked one after the other, each far below 2 ^ 32
  rw [wordSize_bind (by omega), wordSize_bind (by omega), wordSize_bind (by omega),
    wordSize_bind (by omega)]
  refine ⟨_, rfl, ?_, ?_⟩
  · have hbound : twoPow 28 = 268435456 := rfl
    simp only
    omega
  · have hbound : twoPow 29 = 536870912 := rfl
    simp only [totalSize, pushedCount, reservedSize, wordBytes, returnAddressBytes]
    omega

theorem exists_spillOffset {slot : Nat} (hframe : frame.callArgs < twoPow 28)
    (hslot : slot ≤ 8 * mostCounted) :
    ∃ disp, frame.spillOffset slot = .ok disp := by
  have hmost : mostCounted = 1048576 := rfl
  have hbound : twoPow 28 = 268435456 := rfl
  have hword : twoPow 32 = 4294967296 := rfl
  refine ⟨BitVec.ofNat 32 (frame.callArgs + slot), ?_⟩
  rw [spillOffset, wordSize_eq_ok (by omega)]
  rfl

theorem toInt_ofNat_of_lt (hvalue : value < twoPow 31) : (BitVec.ofNat 32 value).toInt = value := by
  have hbound : twoPow 31 = 2147483648 := rfl
  rw [BitVec.toInt_eq_toNat_of_lt] <;> rw [BitVec.toNat_ofNat, Nat.mod_eq_of_lt (by omega)]
  omega

theorem exists_incomingOffset (hframe : frame.totalSize < twoPow 29)
    (hoff : off ≤ 8 * mostCounted) :
    ∃ disp, frame.incomingOffset off = .ok disp := by
  have hmost : mostCounted = 1048576 := rfl
  have hframeBound : twoPow 29 = 536870912 := rfl
  have hword : twoPow 31 = 2147483648 := rfl
  simp only [incomingOffset]
  rw [toInt_ofNat_of_lt (by omega), toInt_ofNat_of_lt (by omega)]
  refine ⟨_, if_pos ?_⟩
  rw [fitsSigned, decide_eq_true_iff, show 32 - 1 = 31 from rfl, hword]
  omega

/-! ## Argument places -/

/-- Stack places lie from the first free one on, eight bytes for each argument at most. -/
theorem stack_of_placeByClass {gp vec : List HostRegister} {stack : Nat}
    (hplace : Place.stack off ∈ Convention.placeByClass gp vec stack types) :
    stack ≤ off ∧ off + 8 ≤ stack + 8 * types.length := by
  fun_induction Convention.placeByClass gp vec stack types with
  | case1 => cases hplace
  | case2 _ _ _ _ _ _ _ ih | case4 _ _ _ _ _ _ _ ih =>
    have hrest := ih ((mem_cons.mp hplace).resolve_left (by simp))
    rw [length_cons]
    omega
  | case3 _ _ _ _ _ ih | case5 _ _ _ _ _ ih =>
    rw [length_cons]
    rcases mem_cons.mp hplace with hhere | hrest
    · cases hhere
      omega
    · have := ih hrest
      omega

theorem stack_le_of_places {conv : Convention}
    (hplace : Place.stack off ∈ conv.places types) : off + 8 ≤ 8 * types.length := by
  cases conv with
  | sysv => exact (stack_of_placeByClass hplace).2.trans_eq (Nat.zero_add _)
  | win64 =>
    obtain ⟨⟨type, pos⟩, hpair, hplaced⟩ := mem_map.mp hplace
    have hpos := snd_lt_of_mem_zipIdx hpair
    simp only at hplaced
    split at hplaced
    · cases hplaced
    · cases hplaced
      simp only [Nat.add_zero] at hpos
      omega

/-! ## Registers in use

A register that the allocator gives to a local is one of those it may use, and is
remembered as used. The frame saves the used registers that a function has to
preserve. The scratch and argument registers are not among these, and the stack
pointer is none of the registers that code may use.
-/

namespace Allocation

/-- The registers that were given out. -/
def used (alloc : Allocation) : RegisterSet := ⟨alloc.intUsed, alloc.vecUsed⟩

/-- Homes of an allocated graph: the registers are in use and may be used, the slots have eight
bytes each. -/
theorem drawn_of_greedy {limit : Option Nat} {conv : Convention} {graph : Graph}
    {alloc : Allocation} (hgreedy : greedy limit conv graph = .ok alloc) :
    (∀ {id reg}, alloc.location? id = some (.register reg) → alloc.used.contains reg = true ∧
        (conv.allocatable graph.hasCalls).contains reg = true) ∧
    ∀ {id slot}, alloc.location? id = some (.spill slot) → spillSlotBytes ∣ slot := by
  obtain ⟨done, hhomes, rfl⟩ := homes_of_greedy hgreedy
  refine ⟨fun hhome => ?_, fun hhome => (hhomes.proper hhome).1⟩
  obtain ⟨-, hallow, howned⟩ := hhomes.proper hhome
  exact ⟨howned, hhomes.allocatable ▸ hallow⟩

end Allocation

/-! ## Saved registers -/

/-- The registers that a frame saves. -/
def Frame.saved (frame : Frame) : RegisterSet := ⟨frame.intSaved, frame.vecSaved⟩

theorem of_wordSize {value found : Nat} (hvalue : wordSize value = .ok found) :
    found = value ∧ value < twoPow 32 := by
  rw [wordSize] at hvalue
  split at hvalue
  next hlt => exact ⟨(Except.ok.inj hvalue).symm, hlt⟩
  next => cases hvalue

/-- A frame holds the registers to save, the spilled bytes and the outgoing arguments, and pads
the whole to sixteen bytes. -/
structure Frame.Fits (frame : Frame) (conv : Convention) (used : RegisterSet) (spill : Nat)
    (maxArguments : Option Nat) : Prop where
  saved : frame.saved = conv.calleeSaved.inter used
  xmmSave : frame.xmmSave = frame.vecSaved.count * vectorBytes
  spill : frame.spill = spill
  arguments : argumentSlots maxArguments * argumentBytes ≤ frame.callArgs
  padding : frame.callArgs < argumentSlots maxArguments * argumentBytes + 16
  aligned : 16 ∣ frame.totalSize
  word : frame.totalSize < twoPow 32

theorem of_compute {conv : Convention} {intUsed vecUsed : Mask} {spill : Nat}
    (hframe : Frame.compute conv intUsed vecUsed spill maxArguments = .ok frame) :
    frame.Fits conv ⟨intUsed, vecUsed⟩ spill maxArguments := by
  obtain ⟨fixed, hfixed, hframe⟩ := of_bind hframe
  obtain ⟨args, hargs, hframe⟩ := of_bind hframe
  obtain ⟨used, hused, hframe⟩ := of_bind hframe
  obtain ⟨padded, hpadded, hframe⟩ := of_bind hframe
  cases hframe
  have hfixed := (of_wordSize hfixed).1
  have hargs : args = argumentSlots maxArguments * argumentBytes := (of_wordSize hargs).1
  have hused := (of_wordSize hused).1
  obtain ⟨hpadded, hword⟩ := of_wordSize hpadded
  -- rounding down after sixteen were added keeps all that is used
  refine ⟨rfl, rfl, rfl, ?_, ?_, ⟨(padded - 1) / 16, ?_⟩, ?_⟩
  all_goals
    simp only [totalSize, reservedSize, pushedCount, wordBytes,
      returnAddressBytes, vectorBytes] at hfixed ⊢
    omega

end GraphJit
