import GraphJit.Proofs.Execution
import GraphJit.Proofs.HomeContents

/-! # Moves that behave as one

A cell is a register or a word of memory, and a move is code that takes a value to a
cell. If no move writes what an earlier one has brought, or what a later one reads,
then moves made one after the other behave as if all of them were made at once.
-/

namespace GraphJit

open X64 Code List

namespace X64

/-! ## Cells -/

/-- A register, or the eight bytes of memory from an address on. -/
inductive Cell where
  | gpr (reg : Gpr)
  | xmm (reg : Xmm)
  | memory (addr : BitVec 64)
deriving DecidableEq

namespace Cell

/-- The low word of a cell. -/
def read (cpu : Cpu) : Cell → BitVec 64
  | gpr reg => cpu.gpr reg
  | xmm reg => (cpu.xmm reg).setWidth 64
  | memory addr => cpu.memory.read addr 8

/-- A cell that keeps its word when another one is written. -/
def Apart : Cell → Cell → Prop
  | gpr reg, gpr written => reg ≠ written
  | xmm reg, xmm written => reg ≠ written
  | memory addr, memory written =>
    ∀ i < 8, 8 ≤ (addr + BitVec.ofNat 64 i - written).toNat
  | _, _ => True

end Cell

/-- Two states that differ in some cells only, the flags apart. -/
structure Altered (cells : List Cell) (before after : Cpu) : Prop where
  gpr : ∀ reg, .gpr reg ∉ cells → after.gpr reg = before.gpr reg
  xmm : ∀ reg, .xmm reg ∉ cells → after.xmm reg = before.xmm reg
  memory : ∀ addr, (∀ start, .memory start ∈ cells → 8 ≤ (addr - start).toNat) →
    after.memory addr = before.memory addr

namespace Altered

variable {cells others : List Cell} {before mid after : Cpu}

theorem refl (cpu : Cpu) : Altered cells cpu cpu := ⟨fun _ _ => rfl, fun _ _ => rfl, fun _ _ => rfl⟩

/-- Changes in two sets of cells are changes in both together. -/
theorem trans (h : Altered cells before mid) (h' : Altered others mid after) :
    Altered (cells ++ others) before after where
  gpr reg hreg := by
    rw [mem_append, not_or] at hreg
    rw [h'.gpr reg hreg.2, h.gpr reg hreg.1]
  xmm reg hreg := by
    rw [mem_append, not_or] at hreg
    rw [h'.xmm reg hreg.2, h.xmm reg hreg.1]
  memory addr haddr := by
    have hfar := fun start (hstart : Cell.memory start ∈ cells ∨ Cell.memory start ∈ others) =>
      haddr start (mem_append.mpr hstart)
    rw [h'.memory addr fun start hstart => hfar start (.inr hstart),
      h.memory addr fun start hstart => hfar start (.inl hstart)]

theorem mono (h : Altered cells before after) (hsub : cells ⊆ others) :
    Altered others before after where
  gpr reg hreg := h.gpr reg fun hmem => hreg (hsub hmem)
  xmm reg hreg := h.xmm reg fun hmem => hreg (hsub hmem)
  memory addr haddr := h.memory addr fun start hstart => haddr start (hsub hstart)

theorem setGpr (cpu : Cpu) (reg : Gpr) (value : BitVec 64) :
    Altered [.gpr reg] cpu (cpu.setGpr reg value) where
  gpr other hother := by
    apply HostState.gpr_set_of_ne
    rintro rfl
    exact hother mem_cons_self
  xmm _ _ := rfl
  memory _ _ := rfl

theorem setXmm (cpu : Cpu) (reg : Xmm) (value : BitVec 128) :
    Altered [.xmm reg] cpu (cpu.setXmm reg value) where
  gpr _ _ := rfl
  xmm other hother := by
    apply if_neg
    rintro rfl
    exact hother mem_cons_self
  memory _ _ := rfl

theorem write (cpu : Cpu) (addr : BitVec 64) (width : Width) (value : BitVec 64) :
    Altered [.memory addr] cpu { cpu with memory := cpu.memory.write addr width.bytes value } where
  gpr _ _ := rfl
  xmm _ _ := rfl
  memory place hplace := by
    have hbytes : width.bytes ≤ 8 := by cases width <;> decide
    have hfar := hplace addr mem_cons_self
    exact if_neg (Nat.not_lt.mpr (hbytes.trans hfar))

/-- A cell that is apart from all changed ones keeps its word. -/
theorem read_eq (h : Altered cells before after) {cell : Cell}
    (hapart : ∀ written ∈ cells, cell.Apart written) : cell.read after = cell.read before := by
  cases cell with
  | gpr reg =>
    apply h.gpr
    intro hmem
    exact hapart _ hmem rfl
  | xmm reg =>
    apply congrArg (BitVec.setWidth 64)
    apply h.xmm
    intro hmem
    exact hapart _ hmem rfl
  | memory addr =>
    apply Memory.read_congr
    intro i hi
    apply h.memory
    intro start hstart
    exact hapart _ hstart i hi

end Altered

end X64

namespace Lowering

theorem narrower_w64 (width : Width) : narrower width .w64 = true := by
  cases width <;> rfl

theorem narrower_self (width : Width) : narrower width width = true := by
  cases width <;> rfl

theorem cut_cut_self (width : Width) (value : BitVec 64) :
    width.cut (width.cut value) = width.cut value :=
  cut_cut (narrower_self width) value

/-- A state in which a cell has got a value, and beside it only some scratch cells may have
changed. -/
def Brought (cell : Cell) (scratch : List Cell) (width : Width) (value : BitVec 64)
    (before after : Cpu) : Prop :=
  Altered (cell :: scratch) before after ∧ width.cut (cell.read after) = value

namespace Brought

variable {cell next : Cell} {scratch others : List Cell} {width wide : Width} {value : BitVec 64}
  {before between after : Cpu}

theorem mono (h : Brought cell scratch width value before after) (hsub : scratch ⊆ others) :
    Brought cell others width value before after :=
  ⟨h.1.mono (cons_subset_cons _ hsub), h.2⟩

/-- A value is brought on from the cell to which it was brought first. -/
theorem trans (h : Brought cell scratch width value before between)
    (hwide : narrower width wide = true)
    (h' : Brought next others wide (wide.cut (cell.read between)) between after) :
    Brought next (cell :: scratch ++ others) width value before after := by
  constructor
  · refine (h.1.trans h'.1).mono ?_
    intro other hother
    simp only [mem_append, mem_cons] at hother ⊢
    rcases hother with (hcell | hscr) | hnext | hothers
    · exact .inr (.inl (.inl hcell))
    · exact .inr (.inl (.inr hscr))
    · exact .inl hnext
    · exact .inr (.inr hothers)
  · rw [← cut_cut hwide, h'.2, cut_cut hwide, h.2]

end Brought

/-! ## Moves -/

/-- Code that takes a value to a cell. -/
structure Move where
  emission : Emission
  cell : Cell
  /-- Other cells that the code writes. -/
  scratch : List Cell
  width : Width
  /-- The value, which depends on the state before. -/
  value : Cpu → BitVec 64

namespace Move

/-- All cells that a move writes. -/
def written (move : Move) : List Cell := move.cell :: move.scratch

/-- The word that a move has brought, at its width. -/
def result (move : Move) (cpu : Cpu) : BitVec 64 := move.width.cut (move.cell.read cpu)

/-- A move that does its work in every state with a given stack pointer, and keeps that. -/
structure Valid (base : BitVec 64) (move : Move) : Prop where
  runs : ∀ items, move.emission = .ok items → ∀ (host : Host) (cpu : Cpu),
    cpu.gpr Gpr.rsp = base → ∃ next, host.execute false items cpu = some next ∧
      Brought move.cell move.scratch move.width (move.value cpu) cpu next
  stackPointer : .gpr Gpr.rsp ∉ move.written

/-- Two moves of which the later one keeps the result of the earlier one, and finds the value it
reads as it was. -/
structure Ordered (base : BitVec 64) (first second : Move) : Prop where
  result : ∀ written ∈ second.written, first.cell.Apart written
  value : ∀ before after : Cpu, before.gpr Gpr.rsp = base → Altered first.written before after →
    second.value after = second.value before

variable {base : BitVec 64} {moves : List Move} {items : List Item}

theorem rsp_not_mem_written (hvalid : ∀ move ∈ moves, move.Valid base) :
    .gpr Gpr.rsp ∉ moves.flatMap written := by
  intro hmem
  obtain ⟨move, hmove, hcell⟩ := mem_flatMap.mp hmem
  exact (hvalid move hmove).stackPointer hcell

/-- Moves in order behave as one parallel move. -/
theorem exists_execute (hvalid : ∀ move ∈ moves, move.Valid base)
    (hord : moves.Pairwise (Ordered base)) (hitems : sequence (moves.map emission) = .ok items)
    (host : Host) {cpu : Cpu} (hbase : cpu.gpr Gpr.rsp = base) :
    ∃ next, host.execute false items cpu = some next ∧ Altered (moves.flatMap written) cpu next ∧
      ∀ move ∈ moves, move.result next = move.value cpu := by
  induction moves generalizing cpu items with
  | nil =>
    cases hitems
    exact ⟨cpu, rfl, .refl cpu, forall_mem_nil _⟩
  | cons move moves ih =>
    rw [forall_mem_cons] at hvalid
    rw [pairwise_cons] at hord
    rw [map_cons] at hitems
    obtain ⟨first, rest, hfirst, hrest, rfl⟩ := of_sequence_cons hitems
    obtain ⟨mid, hmiddle, halter, hresult⟩ := hvalid.1.runs first hfirst host cpu hbase
    have hbase' : mid.gpr Gpr.rsp = base := (halter.gpr _ hvalid.1.stackPointer).trans hbase
    obtain ⟨next, hnext, hlater, hresults⟩ := ih hvalid.2 hord.2 hrest hbase'
    refine ⟨next, (Host.execute_append _ hmiddle).trans hnext, halter.trans hlater, ?_⟩
    rw [forall_mem_cons]
    constructor
    · -- what was moved first is kept by all the others
      rw [← hresult, result, hlater.read_eq]
      intro cell hcell
      obtain ⟨other, hother, hcell⟩ := mem_flatMap.mp hcell
      exact (hord.1 other hother).result cell hcell
    · intro other hother
      rw [hresults other hother]
      exact (hord.1 other hother).value cpu mid hbase halter

end Move

end Lowering

end GraphJit
