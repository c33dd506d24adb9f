import GraphJit.Proofs.AllocatedHomes

/-! # Frame geometry

A computed frame is aligned and no larger than its padding makes it. The outgoing
arguments, the spill slots and the saved vector registers have bytes of their own,
all between the stack pointer and the pushed registers.
-/

namespace GraphJit

/-- Bytes from a displacement on. -/
structure Region where
  start : Int
  bytes : Nat

def Region.Apart (a b : Region) : Prop := a.start + a.bytes ≤ b.start ∨ b.start + b.bytes ≤ a.start

namespace Frame

/-- What code addresses from the stack pointer. -/
inductive Part where
  | outgoing
  | spillSlot (slot : Nat)
  | saveSlot (index : Nat)

/-- The parts that a frame has room for. -/
def Has (frame : Frame) : Part → Prop
  | .outgoing => True
  | .spillSlot slot => wordBytes ∣ slot ∧ slot + wordBytes ≤ frame.spill
  | .saveSlot index => index < frame.vecSaved.count

/-- The bytes of a part, at the displacement that the code computes for it. -/
def region (frame : Frame) : Part → Except Fault Region
  | .outgoing => .ok ⟨0, frame.callArgs⟩
  | .spillSlot slot => return ⟨(← frame.spillOffset slot).toInt, wordBytes⟩
  | .saveSlot index => .ok ⟨(frame.saveOffset index).toInt, vectorBytes⟩

/-- Bytes that the calls of a function ask for. -/
def requested : Option Nat → Nat
  | some count => 16 * max count 4
  | none => 0

variable {frame : Frame} {conv : Convention} {used : RegisterSet} {spill : Nat}
  {maxArguments : Option Nat} {part other : Part}

theorem requested_eq (hcount : ∀ count ∈ maxArguments, count < twoPow 32) :
    requested maxArguments = argumentSlots maxArguments * argumentBytes := by
  cases maxArguments with
  | none => rfl
  | some count => rw [argumentSlots_some (hcount count rfl), Nat.mul_comm]; rfl

/-- Where the parts of a frame begin. -/
def startOf (frame : Frame) : Part → Nat
  | .outgoing => 0
  | .spillSlot slot => frame.callArgs + slot
  | .saveSlot index => frame.callArgs + frame.spill + index * vectorBytes

def bytesOf (frame : Frame) : Part → Nat
  | .outgoing => frame.callArgs
  | .spillSlot _ => wordBytes
  | .saveSlot _ => vectorBytes

namespace Fits

variable (hfits : frame.Fits conv used spill maxArguments)
include hfits

theorem below_reserved (hpart : frame.Has part) :
    frame.startOf part + frame.bytesOf part ≤ frame.reservedSize := by
  rw [reservedSize]
  cases part with
  | outgoing => simp only [startOf, bytesOf]; omega
  | spillSlot slot =>
    have hslot := hpart.2
    simp only [startOf, bytesOf]
    omega
  | saveSlot index =>
    have hindex : index * 16 + 16 ≤ frame.vecSaved.count * 16 := by
      have : index < frame.vecSaved.count := hpart
      omega
    rw [hfits.xmmSave]
    simp only [startOf, bytesOf, vectorBytes]
    omega

/-- Displacements below 2 ^ 31 are the numbers that they stand for. -/
theorem region_eq (htotal : frame.totalSize < twoPow 31) (hpart : frame.Has part) :
    frame.region part = .ok ⟨frame.startOf part, frame.bytesOf part⟩ := by
  have hbelow := hfits.below_reserved hpart
  have hbound : frame.startOf part < twoPow 31 := by
    rw [totalSize, returnAddressBytes] at htotal
    omega
  cases part with
  | outgoing => rfl
  | spillSlot slot =>
    have hword : frame.callArgs + slot < twoPow 32 := hbound.trans (by decide)
    rw [region, spillOffset, wordSize, if_pos hword]
    exact congrArg (fun start : Int => Except.ok (⟨start, wordBytes⟩ : Region)) (toInt_ofNat_of_lt hbound)
  | saveSlot index =>
    exact congrArg (fun start : Int => Except.ok (⟨start, vectorBytes⟩ : Region)) (toInt_ofNat_of_lt hbound)

end Fits

/-- Different parts share no byte: the spill slots lie above the arguments, and the saved
registers above the spill slots. -/
theorem startOf_apart (hpart : frame.Has part) (hother : frame.Has other) (hne : part ≠ other) :
    frame.startOf part + frame.bytesOf part ≤ frame.startOf other ∨
      frame.startOf other + frame.bytesOf other ≤ frame.startOf part := by
  cases part <;> cases other <;>
    simp only [Has, startOf, bytesOf, wordBytes, vectorBytes, ne_eq, Part.spillSlot.injEq,
      Part.saveSlot.injEq, not_true_eq_false] at hpart hother hne ⊢ <;> omega

/-- Frames are aligned, made of parts without overlap, and have room for the arguments of calls. -/
theorem compute_lays_out {intUsed vecUsed : Mask}
    (hcount : ∀ count ∈ maxArguments, count < twoPow 32)
    (hframe : compute conv intUsed vecUsed spill maxArguments = .ok frame) :
    frame.reservedSize < twoPow 32 ∧ frame.totalSize < twoPow 32 ∧ 16 ∣ frame.totalSize ∧
      frame.totalSize = 8 + 8 * frame.pushedCount + frame.xmmSave + spill + frame.callArgs ∧
      requested maxArguments ≤ frame.callArgs ∧ frame.callArgs < requested maxArguments + 16 ∧
      (∀ count ∈ maxArguments, ∀ types : List ValueType, types.length ≤ count →
        ∀ off, .stack off ∈ conv.places types → off + 8 ≤ frame.callArgs) ∧
      (frame.totalSize < twoPow 31 →
        (∀ part, frame.Has part → ∃ region, frame.region part = .ok region ∧ 0 ≤ region.start ∧
          region.start + region.bytes ≤ frame.reservedSize) ∧
        ∀ part other a b, frame.Has part → frame.Has other → part ≠ other →
          frame.region part = .ok a → frame.region other = .ok b → a.Apart b) := by
  have hfits := of_compute hframe
  have htotal : frame.totalSize =
      8 + 8 * frame.pushedCount + frame.xmmSave + spill + frame.callArgs := by
    rw [totalSize, reservedSize, wordBytes, returnAddressBytes, hfits.spill]
    omega
  have hreserved : frame.reservedSize = frame.xmmSave + spill + frame.callArgs := by
    rw [reservedSize, hfits.spill]
    omega
  have hrequested := requested_eq hcount
  have hword := hfits.word
  have hargs := hfits.arguments
  refine ⟨by omega, hword, hfits.aligned, htotal, by omega, hrequested ▸ hfits.padding, ?_, ?_⟩
  · intro count hmem types hlength off hoff
    have hle := stack_le_of_places hoff
    cases hmem
    rw [requested] at hrequested
    omega
  · intro hsmall
    refine ⟨fun part hpart => ⟨_, hfits.region_eq hsmall hpart, ?_, ?_⟩, ?_⟩
    · exact Int.natCast_nonneg _
    · exact Int.ofNat_le.mpr (hfits.below_reserved hpart)
    · intro part other a b hpart hother hne ha hb
      cases (hfits.region_eq hsmall hpart).symm.trans ha
      cases (hfits.region_eq hsmall hother).symm.trans hb
      exact (startOf_apart hpart hother hne).imp Int.ofNat_le.mpr Int.ofNat_le.mpr

/-- A frame of two pushed registers, one saved vector register and two spill slots. -/
def stackedFrame : Frame where
  intSaved := 0x1008
  vecSaved := 0x40
  xmmSave := 16
  spill := 16
  callArgs := 88

theorem compute_lays_out_stackedFrame :
    compute .win64 0x1008 0x40 16 (some 5) = .ok stackedFrame ∧ 16 ∣ stackedFrame.totalSize ∧
      (∀ types : List ValueType, types.length ≤ 5 → ∀ off,
        .stack off ∈ Convention.win64.places types → off + 8 ≤ 88) ∧
      ∀ a b, stackedFrame.region (.spillSlot 8) = .ok a →
        stackedFrame.region (.saveSlot 0) = .ok b → a.Apart b := by
  have hframe : compute .win64 0x1008 0x40 16 (some 5) = .ok stackedFrame := by decide +kernel
  obtain ⟨-, -, haligned, -, -, -, hplaces, hregions⟩ := compute_lays_out (by decide) hframe
  obtain ⟨-, hapart⟩ := hregions (by decide +kernel)
  have hslot : stackedFrame.Has (.spillSlot 8) := ⟨by decide, by decide⟩
  have hsave : stackedFrame.Has (.saveSlot 0) := by
    change 0 < stackedFrame.vecSaved.count
    decide +kernel
  exact ⟨hframe, haligned, hplaces 5 rfl, fun a b => hapart _ _ a b hslot hsave Part.noConfusion⟩

end Frame

end GraphJit
