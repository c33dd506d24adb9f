import GraphJit.Proofs.AllocatedHomes

/-! # Registers and their owners

Requests to a register file, one after another. No register is handed out twice, each is
the lowest that was left in its bank, and the books of the file say which were handed out
and to whom. A bank is exhausted once all its registers are handed out.
-/

namespace GraphJit

open List

namespace RegisterSet

variable {set : RegisterSet} {reg : HostRegister} {bank : Nat}

theorem pairwise_inBank (set : RegisterSet) (bank : Nat) :
    (set.inBank bank).Pairwise fun a b => a.id < b.id :=
  pairwise_map.mpr (pairwise_lt_range.filter _)

theorem first?_eq_none_iff : set.first? bank = none ↔
    ∀ reg : HostRegister, reg.bank = bank → set.contains reg = false := by
  simp only [first?, head?_eq_none_iff, eq_nil_iff_forall_not_mem, mem_inBank_iff, not_and,
    Bool.not_eq_true]

/-- The first register of a bank is the lowest. -/
theorem of_first? (hfirst : set.first? bank = some reg) :
    reg.bank = bank ∧ set.contains reg = true ∧
      ∀ other : HostRegister, other.bank = bank → set.contains other = true →
        reg.id ≤ other.id := by
  obtain ⟨rest, hlist⟩ := head?_eq_some_iff.mp hfirst
  have hmem := mem_inBank_iff.mp (mem_of_head? hfirst)
  refine ⟨hmem.1, hmem.2, fun other hbank hother => ?_⟩
  have hin := mem_inBank_iff.mpr ⟨hbank, hother⟩
  have hsorted := pairwise_inBank set bank
  rw [hlist] at hin hsorted
  rcases mem_cons.mp hin with rfl | hrest
  · exact Nat.le_refl _
  · exact (pairwise_cons.mp hsorted).1 other hrest |>.le

end RegisterSet

namespace RegisterFile

/-- One more request for a register of a bank. Next to the file are the registers handed out
so far and who asked for them, the latest first. A request that fails changes nothing. -/
def request (state : RegisterFile × List (HostRegister × Nat)) (bank owner : Nat) :
    RegisterFile × List (HostRegister × Nat) :=
  match state.1.allocate bank owner with
  | .ok (reg, next) => (next, (reg, owner) :: state.2)
  | .error _ => state

/-- The lowest register of a bank that was not handed out. -/
structure Lowest (set : RegisterSet) (given : List (HostRegister × Nat)) (bank : Nat)
    (reg : HostRegister) : Prop where
  inBank : reg.bank = bank
  inSet : set.contains reg = true
  fresh : reg ∉ given.map Prod.fst
  least : ∀ other : HostRegister, other.bank = bank → set.contains other = true →
    other ∉ given.map Prod.fst → reg.id ≤ other.id

/-- The books of a file agree with what was handed out. -/
structure Books (set : RegisterSet) (file : RegisterFile) (given : List (HostRegister × Nat)) :
    Prop where
  allocatable : file.allocatable = set
  owned : ∀ reg, file.owned.contains reg = true ↔ reg ∈ given.map Prod.fst
  owners : file.owners = given
  distinct : (given.map Prod.fst).Nodup

variable {set : RegisterSet} {file : RegisterFile} {given : List (HostRegister × Nat)}

theorem Books.start (set : RegisterSet) : Books set { allocatable := set } [] := by
  refine ⟨rfl, fun reg => ?_, rfl, nodup_nil⟩
  simp [RegisterSet.contains, RegisterSet.mask]

namespace Books

variable (hbooks : Books set file given) (bank owner : Nat)
include hbooks

theorem free_iff (reg : HostRegister) : (file.allocatable.diff file.owned).contains reg = true ↔
      set.contains reg = true ∧ reg ∉ given.map Prod.fst := by
  rw [RegisterSet.contains_diff, hbooks.allocatable, Bool.and_eq_true, Bool.not_eq_true',
    ← Bool.not_eq_true, hbooks.owned]

/-- What a request is answered. -/
theorem allocate_cases : (2 ≤ bank ∧ file.allocate bank owner = .error (.invalidBank bank)) ∨
    (bank < 2 ∧ (∀ reg : HostRegister, reg.bank = bank →
        set.contains reg = true → reg ∈ given.map Prod.fst) ∧
      file.allocate bank owner = .error (.noneLeft bank)) ∨
    (bank < 2 ∧ ∃ reg next, Lowest set given bank reg ∧
      file.allocate bank owner = .ok (reg, next) ∧
      Books set next ((reg, owner) :: given)) := by
  by_cases hbank : 2 ≤ bank
  · exact .inl ⟨hbank, if_pos hbank⟩
  rw [allocate, if_neg hbank]
  cases hfirst : (file.allocatable.diff file.owned).first? bank with
  | none =>
    refine .inr (.inl ⟨Nat.lt_of_not_le hbank, fun reg hsame hin => ?_, rfl⟩)
    by_contra hfresh
    have hfree := RegisterSet.first?_eq_none_iff.mp hfirst reg hsame
    rw [(hbooks.free_iff reg).mpr ⟨hin, hfresh⟩] at hfree
    cases hfree
  | some reg =>
    obtain ⟨hsame, hfree, hleast⟩ := RegisterSet.of_first? hfirst
    obtain ⟨hin, hfresh⟩ := (hbooks.free_iff reg).mp hfree
    refine .inr (.inr ⟨Nat.lt_of_not_le hbank, reg, _, ⟨hsame, hin, hfresh, ?_⟩, rfl, ?_⟩)
    · exact fun other hother hin hfresh => hleast other hother
        ((hbooks.free_iff other).mpr ⟨hin, hfresh⟩)
    · refine ⟨hbooks.allocatable, fun other => ?_, ?_, nodup_cons.mpr ⟨hfresh, hbooks.distinct⟩⟩
      · rw [RegisterSet.contains_insert_iff hin, hbooks.owned, map_cons, mem_cons]
      · exact congrArg _ hbooks.owners

theorem request : Books set (request (file, given) bank owner).1
    (request (file, given) bank owner).2 := by
  unfold RegisterFile.request
  rcases hbooks.allocate_cases bank owner with ⟨-, hanswer⟩ | ⟨-, -, hanswer⟩ |
    ⟨-, reg, next, -, hanswer, hnext⟩
  · rwa [hanswer]
  · rwa [hanswer]
  · rwa [hanswer]

theorem owner?_eq_some_iff (reg : HostRegister) :
    file.owner? reg = some owner ↔ (reg, owner) ∈ given := by
  rw [owner?, hbooks.owners, lookup_eq_some_iff_mem hbooks.distinct]

theorem usage_eq : file.usage bank =
    ((given.filter fun pair => pair.1.bank == bank).length, (set.mask bank).count) := by
  rw [usage, hbooks.allocatable]
  refine congrArg (·, _) ?_
  -- both sides count the same registers
  have hperm : (file.owned.inBank bank).Perm
      ((given.filter fun pair => pair.1.bank == bank).map Prod.fst) := by
    refine (perm_ext_iff_of_nodup ?_ ?_).mpr fun reg => ?_
    · refine (RegisterSet.pairwise_inBank ..).imp ?_
      rintro a b hlt rfl
      exact Nat.lt_irrefl _ hlt
    · exact (filter_sublist.map _).nodup hbooks.distinct
    · rw [RegisterSet.mem_inBank_iff, hbooks.owned]
      simp only [mem_map, mem_filter, beq_iff_eq]
      constructor
      · rintro ⟨hsame, pair, hpair, rfl⟩
        exact ⟨pair, ⟨hpair, hsame⟩, rfl⟩
      · rintro ⟨pair, ⟨hpair, hsame⟩, rfl⟩
        exact ⟨hsame, pair, hpair, rfl⟩
  rw [Mask.count, ← length_map Prod.fst, ← hperm.length_eq, RegisterSet.inBank, length_map]

end Books

/-- A file of some registers after requests, each for a bank and by an owner, and what was
handed out. -/
def serve (set : RegisterSet) (calls : List (Nat × Nat)) :
    RegisterFile × List (HostRegister × Nat) :=
  calls.foldl (fun state call => request state call.1 call.2) ({ allocatable := set }, [])

theorem serve_concat (set : RegisterSet) (calls : List (Nat × Nat)) (bank owner : Nat) :
    serve set (calls ++ [(bank, owner)]) = request (serve set calls) bank owner :=
  foldl_append

theorem books_serve (set : RegisterSet) (calls : List (Nat × Nat)) :
    Books set (serve set calls).1 (serve set calls).2 := by
  induction calls using reverseRecOn with
  | nil => exact .start set
  | append_singleton calls call ih =>
    rw [serve_concat]
    exact ih.request call.1 call.2

/-- Whatever was asked before: no register was handed out twice, the file knows the owners and
counts what it has handed out. The next request gets the lowest register that is left in its
bank, or it fails because there is none or no such bank, and then changes nothing. -/
theorem serve_hands_out_once (set : RegisterSet) (calls : List (Nat × Nat)) :
    ∃ file given, serve set calls = (file, given) ∧ (given.map Prod.fst).Nodup ∧
      (∀ reg owner, file.owner? reg = some owner ↔ (reg, owner) ∈ given) ∧
      (∀ reg, file.owned.contains reg = true ↔ reg ∈ given.map Prod.fst) ∧
      (∀ bank, file.usage bank =
        ((given.filter fun pair => pair.1.bank == bank).length, (set.mask bank).count)) ∧
      ∀ bank owner, ((2 ≤ bank ∧ file.allocate bank owner = .error (.invalidBank bank)) ∨
          (bank < 2 ∧ (∀ reg : HostRegister, reg.bank = bank →
              set.contains reg = true → reg ∈ given.map Prod.fst) ∧
            file.allocate bank owner = .error (.noneLeft bank)) ∨
          bank < 2 ∧ ∃ reg next, Lowest set given bank reg ∧
            file.allocate bank owner = .ok (reg, next) ∧
            serve set (calls ++ [(bank, owner)]) = (next, (reg, owner) :: given)) ∧
        ∀ cause, file.allocate bank owner = .error cause →
          serve set (calls ++ [(bank, owner)]) = (file, given) := by
  have hbooks := books_serve set calls
  generalize hserve : serve set calls = state at hbooks
  obtain ⟨file, given⟩ := state
  refine ⟨file, given, rfl, hbooks.distinct,
    fun reg owner => hbooks.owner?_eq_some_iff owner reg, hbooks.owned, hbooks.usage_eq,
    fun bank owner => ⟨?_, fun cause hanswer => ?_⟩⟩
  · refine (hbooks.allocate_cases bank owner).imp_right (Or.imp_right ?_)
    rintro ⟨hbank, reg, next, hlowest, hanswer, -⟩
    refine ⟨hbank, reg, next, hlowest, hanswer, ?_⟩
    rw [serve_concat, hserve, request, hanswer]
  · rw [serve_concat, hserve, request, hanswer]

end RegisterFile

end GraphJit
