import GraphJit.Proofs.GeneratedCode

/-! # Acceptance and register pressure

Whether code can be generated for a graph does not depend on how many registers the
allocator may use, as long as every local is accessed in the class of its declared
type. A local that is accessed in the other class is refused if it lives in a
register and accepted if it is spilled.
-/

namespace GraphJit

open X64 Code Lowering

/-- Whether a local is accessed in the class of its declared type. It does not matter how other
operands are accessed, for they have no home. -/
def Graph.keepsClass (graph : Graph) (opnd : Operand) (isFloat : Bool) : Bool :=
  opnd.localId?.all fun id => (graph.locals.type? id).all (·.isFloat == isFloat)

/-- Whether no operation accesses a local in the class that is not its own. -/
def Graph.classesKept (graph : Graph) : Bool :=
  graph.operations.all fun op => op.accesses.all fun access =>
    graph.keepsClass access.1 access.2

variable {graph : Graph} {opts : Options} {args : List ValueType}
  {alloc other : Allocation}

theorem ofClass_of_bankOf {reg : HostRegister} {type : ValueType}
    (hbank : reg.bank = Allocation.bankOf type) (hid : reg.id < 16) :
    ofClass type.isFloat reg = true := by
  cases type <;> simp [ofClass, isGpr, isXmm, hbank, hid, Allocation.bankOf,
    ValueType.isFloat, ValueType.isInteger]

theorem housed_targetOf (hhousing : Allocation.Housing graph alloc) (opts : Options)
    (frame : Frame) (args : List ValueType) :
    (targetOf opts alloc frame args).Housed
      fun opnd isFloat => graph.keepsClass opnd isFloat = true := by
  intro id type isFloat reg hkeeps hhome
  obtain ⟨declared, hdecl, hbank, hid⟩ := hhousing.inRegister hhome
  change (graph.locals.type? id).all (·.isFloat == isFloat) = true at hkeeps
  rw [hdecl, Option.all_some, beq_iff_eq] at hkeeps
  rw [← hkeeps]
  exact ofClass_of_bankOf hbank hid

/-- Code for one allocation of a graph shows that there is code for another. -/
theorem exists_generate (hclasses : graph.classesKept = true) (hbounded : Bounded graph args)
    (hweight : graph.weight ≤ mostCounted) (hhousing : Allocation.Housing graph alloc)
    (hother : Allocation.Housing graph other)
    (hcode : ∃ function, graph.generate opts alloc args = .ok function) :
    ∃ function, graph.generate opts other args = .ok function := by
  obtain ⟨frame, hframe, hcallArgs, htotal⟩ := exists_frame hbounded hhousing opts.convention
  obtain ⟨otherFrame, hotherFrame, hotherCallArgs, hotherTotal⟩ :=
    exists_frame hbounded hother opts.convention
  let s := targetOf opts alloc frame args
  let t := targetOf opts other otherFrame args
  let p : Pairing :=
    { first := s, second := t, fits := fun opnd isFloat => graph.keepsClass opnd isFloat }
  have hside : Alongside p := ⟨rfl, rfl, rfl, fun _ => rfl⟩
  have hhomes (id : Nat) :
      (s.allocation.location? id).isSome = (t.allocation.location? id).isSome := by
    rw [Bool.eq_iff_iff]
    exact (hhousing.placed id).trans (hother.placed id).symm
  have hagree : Agree p :=
    agree_of_housed (sized_targetOf hbounded hhousing opts hcallArgs htotal)
      (sized_targetOf hbounded hother opts hotherCallArgs hotherTotal) hside
      (housed_targetOf hhousing ..) (housed_targetOf hother ..) hhomes
  have hcovers : ∀ op ∈ graph.operations, p.Covers op := fun op hop =>
    ⟨List.all_eq_true.mp (List.all_eq_true.mp hclasses op hop), fun _ _ _ => trivial⟩
  have hpaired := (similar_function hside graph.blocks_over_id hcovers).paired hagree
  -- The items for both allocations match, so that both streams can be finished or neither.
  rw [generate_eq hframe] at hcode
  rw [generate_eq hotherFrame]
  obtain ⟨function, hfn⟩ := hcode
  obtain ⟨items, hitems, hfn⟩ := of_bind hfn
  obtain ⟨code, hasm, -⟩ := of_bind hfn
  change s.function graph = .ok items at hitems
  rw [hitems] at hpaired
  change ∃ function, (t.function graph >>= _) = .ok function
  generalize t.function graph = emission at hpaired
  cases hpaired with
  | @both _ others hmatch _ hlength _ =>
    have hshort : 15 * others.length < twoPow 31 := by
      have hmost : mostCounted = 1048576 := rfl
      have hword : twoPow 31 = 2147483648 := rfl
      omega
    obtain ⟨finished, hfin⟩ := exists_assemble hmatch hshort hasm
    refine ⟨{ code := finished, frame := otherFrame }, ?_⟩
    change (assemble opts.avx graph.size others >>= _) = _
    rw [hfin]
    rfl

/-- With all accesses in the class of the declared types, and sizes for which no offset leaves
its range, every number of registers gives code or none does. -/
theorem generate_ok_iff_of_limits {first second : Option Nat} (hclasses : graph.classesKept = true)
    (hlocals : graph.locals.count ≤ mostCounted) (hweight : graph.weight ≤ mostCounted)
    (hargs : args.length ≤ mostCounted)
    (halloc : Allocation.greedy first opts.convention graph = .ok alloc)
    (hother : Allocation.greedy second opts.convention graph = .ok other) :
    (∃ function, graph.generate opts alloc args = .ok function) ↔
      ∃ function, graph.generate opts other args = .ok function := by
  have hbounded : Bounded graph args := by
    refine ⟨hlocals, ?_, hargs⟩
    intro count hcount
    exact (lt_weight_of_maxCallArguments? hcount).trans_le hweight
  have hhousing := Allocation.housing_of_greedy halloc
  have hotherHousing := Allocation.housing_of_greedy hother
  constructor
  · exact exists_generate hclasses hbounded hweight hhousing hotherHousing
  · exact exists_generate hclasses hbounded hweight hotherHousing hhousing

/-- A float in the second local, an operation, and the first local returned. -/
def classSample (op : Operation) : Graph where
  blocks := #[
    { index := 0
      operations := [
        .copy (.localVar 1 .f64) (.constant 0x3FF0000000000000 .f64), op,
        .ret (.localVar 0 .i64)] }]
  locals := ⟨#[some .i64, some .f64]⟩

/-- The second local is converted to an integer. -/
def conversionSample : Graph := classSample
    (.compute .toInteger (.localVar 0 .i64) [.localVar 1 .f64])

/-- The second local is added to an integer as it is. -/
def misclassedSample : Graph := classSample
    (.compute .add (.localVar 0 .i64) [.localVar 1 .f64, .constant 1 .i64])

/-- The homes in the samples, with registers for both locals. -/
def sampleRegisters : Allocation where
  locations := #[some (.register (.gp 3)), some (.register (.xmm 8))]
  intUsed := 8
  vecUsed := 256
  spillSize := 0

/-- The homes in the samples without registers. -/
def sampleSlots : Allocation where
  locations := #[some (.spill 0), some (.spill 8)]
  intUsed := 0
  vecUsed := 0
  spillSize := 16

theorem generate_ok_iff_of_limits_conversionSample : conversionSample.classesKept = true ∧
      Allocation.greedy none .sysv conversionSample = .ok sampleRegisters ∧
      Allocation.greedy (some 0) .sysv conversionSample = .ok sampleSlots ∧
      ((∃ function, conversionSample.generate {} sampleRegisters [] = .ok function) ↔
        ∃ function, conversionSample.generate {} sampleSlots [] = .ok function) := by
  have hclasses : conversionSample.classesKept = true := by decide
  have hregisters : Allocation.greedy none .sysv conversionSample = .ok sampleRegisters :=
    Allocation.greedy_eq_ok (by decide) (by cbv)
  have hslots : Allocation.greedy (some 0) .sysv conversionSample = .ok sampleSlots :=
    Allocation.greedy_eq_ok (by decide) (by cbv)
  refine ⟨hclasses, hregisters, hslots, ?_⟩
  exact generate_ok_iff_of_limits hclasses (by decide) (by decide) (by decide) hregisters hslots

/-- A float that is used as an integer is refused in a register and accepted in a slot. -/
theorem generate_misclassedSample_differs :
    Allocation.greedy none .sysv misclassedSample = .ok sampleRegisters ∧
      Allocation.greedy (some 0) .sysv misclassedSample = .ok sampleSlots ∧
      misclassedSample.generate {} sampleRegisters []
        = .error (.error (.encoding (.notRegister (.xmm 8) .general))) ∧
      ∃ function, misclassedSample.generate {} sampleSlots [] = .ok function := by
  refine ⟨Allocation.greedy_eq_ok (by decide) (by cbv),
    Allocation.greedy_eq_ok (by decide) (by cbv), by decide +kernel, ?_⟩
  have haccepted : (misclassedSample.generate {} sampleSlots []).isOk = true := by
    decide +kernel
  cases hresult : misclassedSample.generate {} sampleSlots [] with
  | ok function => exact ⟨function, rfl⟩
  | error failure =>
    rw [hresult] at haccepted
    cases haccepted

end GraphJit
