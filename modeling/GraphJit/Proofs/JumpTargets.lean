import GraphJit.Proofs.StreamLayout
import Mathlib.Data.List.Permutation

/-! # Jumps land where they were meant to

In finished code, each placeholder has become a jump whose displacement leads from the
end of the jump to its target: far jumps to where their block was entered, near jumps to
where they were closed. All other bytes are as they were emitted.
-/

namespace GraphJit.Code

open X64 List Code.Stream

/-! ## The bytes of jumps -/

/-- A jump with a displacement of four bytes. -/
def farBytes (disp : BitVec 32) : Option Condition → List UInt8
  | none => 0xE9 :: littleEndian disp 4
  | some cond => 0x0F :: byte (0x80 + cond.code) :: littleEndian disp 4

/-- A conditional jump with a displacement of one byte. -/
def nearBytes (disp : BitVec 8) (cond : Condition) : List UInt8 :=
  [byte (0x70 + cond.code), UInt8.ofBitVec disp]

theorem length_farBytes (disp : BitVec 32) (cond : Option Condition) :
    (farBytes disp cond).length = placeholderSize cond := by
  cases cond <;> rfl

variable {jump : Jump} {off value : Int} {blocks : Array (Option Nat)} {pos : Nat}
  {edit : Edit} {jumps : List Jump} {filled : List Edit}

/-- A displacement that fits is written as it is. -/
theorem toInt_ofInt_of_fits {width : Nat} (hfits : fitsSigned (width + 1) value) :
    (BitVec.ofInt (width + 1) value).toInt = value := by
  obtain ⟨hlow, hhigh⟩ := of_decide_eq_true hfits
  rw [Nat.add_sub_cancel] at hlow hhigh
  rw [BitVec.toInt_ofInt]
  have hhalf : (2 ^ (width + 1) : Nat) = 2 * twoPow width := by
    rw [Nat.pow_succ, Nat.mul_comm]
    rfl
  apply Int.bmod_eq_of_le <;> rw [hhalf] <;> omega

theorem signedPosition_eq (hbound : pos < twoPow 63) : signedPosition pos = pos := by
  have hbound' : pos < 2 ^ 63 := hbound
  rw [signedPosition, BitVec.toInt_ofNat']
  apply Int.bmod_eq_of_le <;> omega

/-- The edit that fills in a jump with its offset. -/
def Jump.filling (jump : Jump) (off : Int) : Edit :=
  ⟨jump.position, farBytes (BitVec.ofInt 32 off) jump.condition⟩

/-- The offset can be encoded, in as many bytes as the placeholder has. -/
def Jump.Holds (jump : Jump) (off : Int) : Prop :=
  fitsWord off = true ∧ (jump.filling off).bytes.length = jump.size

theorem edit_eq (jump : Jump) (off : Int) : jump.edit off = if fitsWord off then
      if (jump.filling off).bytes.length ≠ jump.size then .error (.error
        (.jumpSizeMismatch jump.position jump.size (jump.filling off).bytes.length))
      else .ok (jump.filling off)
    else .error (.error (.encoding (.offsetRange off))) := by
  have hencode : jump.encode off =
      if fitsWord off then .ok (jump.filling off).bytes else .error (.offsetRange off) := by
    unfold Jump.encode Jump.filling
    cases jump.condition <;> rfl
  rw [Jump.edit, hencode]
  split <;> rfl

theorem edit_eq_ok_iff : jump.edit off = .ok edit ↔ jump.Holds off ∧ jump.filling off = edit := by
  rw [edit_eq, Jump.Holds]
  split
  next hfits =>
    split
    next hsize => exact iff_of_false (by simp) fun h => hsize h.1.2
    next hsize => simp [hfits, not_not.mp hsize]
  next hfits => exact iff_of_false (by simp) fun h => hfits h.1.1

theorem wordDifference_eq {found : Int}
    (hfound : ((wordDifference value : Except Fault Int) : Outcome Int) = .ok found) :
    found = value := by
  unfold wordDifference at hfound
  split at hfound
  all_goals cases hfound
  rfl

theorem of_offset (hoff : jump.offset blocks = .ok off) :
    ∃ target, blocks[jump.target]? = some (some target) ∧
      off = signedPosition target - signedPosition jump.position - signedPosition jump.size := by
  unfold Jump.offset at hoff
  split at hoff
  next => cases hoff
  next target htarget =>
    obtain ⟨distance, hdistance, hrest⟩ := of_bind hoff
    refine ⟨target, Option.join_eq_some_iff.mp htarget, ?_⟩
    rw [wordDifference_eq hrest, wordDifference_eq hdistance]

theorem of_edit (hedit : jump.edit off = .ok edit) : ∃ disp : BitVec 32, disp.toInt = off ∧
      edit = ⟨jump.position, farBytes disp jump.condition⟩ := by
  obtain ⟨⟨hfits, -⟩, rfl⟩ := edit_eq_ok_iff.mp hedit
  exact ⟨_, toInt_ofInt_of_fits hfits, rfl⟩

/-- The patch of a near jump, which only has a short form. -/
theorem of_nearPatch {near : NearJump} {patch : Edit}
    (hpatch : Stream.nearPatch near pos = .ok patch) :
    ∃ disp : BitVec 8, (near.position + 2 : Int) + disp.toInt = pos ∧
      patch = ⟨near.position, nearBytes disp near.condition⟩ := by
  unfold Stream.nearPatch at hpatch
  dsimp only at hpatch
  generalize hoff : (pos : Int) - ((near.position + Stream.nearSize : Nat) : Int) = off at hpatch
  have hsize : Stream.nearSize = 2 := rfl
  split at hpatch
  next => cases hpatch
  next bytes hbytes =>
    split at hpatch
    next => cases hpatch
    next hshort =>
      cases hpatch
      have hfits : fitsByte off := by
        by_contra hlong
        exact hshort (.inl (by simp [jccLength, hlong, hsize]))
      rw [shortestJcc, if_pos hfits] at hbytes
      cases hbytes
      refine ⟨BitVec.ofInt 8 off, ?_, rfl⟩
      rw [toInt_ofInt_of_fits hfits, ← hoff, hsize]
      omega

/-! ## Finished code -/

/-- Code whose placeholders have become jumps to where they were meant to go. -/
structure Lands (avx : Bool) (items : List Item) (stream : Stream) (out : List UInt8) : Prop where
  length : out.length = stream.position
  emitted : stream.code.toList = items.flatMap (Item.emitted avx)
  kept : ∀ pos, (∀ k item, items[k]? = some item → item.isPlaceholder →
    pos < startOf avx items k ∨ startOf avx items (k + 1) ≤ pos) →
      out[pos]? = stream.code[pos]?
  far : ∀ k cond target, items[k]? = some (.jump cond target) →
    ∃ j disp, items[j]? = some (.enter target) ∧
      stream.blocks[target]? = some (some (startOf avx items j)) ∧
      bytesAt out (startOf avx items k) (placeholderSize cond) =
        farBytes disp cond ∧
      (startOf avx items k + placeholderSize cond : Int) + disp.toInt =
        startOf avx items j
  near : ∀ k cond, items[k]? = some (.openNear cond) →
    ∃ j disp, ClosedBy items k j ∧
      bytesAt out (startOf avx items k) 2 = nearBytes disp cond ∧
      (startOf avx items k + 2 : Int) + disp.toInt = startOf avx items j

/-- The placeholder of the far jump at item `k` has become a jump to where its block was
entered. -/
def FarFilled (avx : Bool) (count : Nat) (items : List Item) (out : List UInt8) (k : Nat)
    (cond : Option Condition) (target : Nat) : Prop :=
  ∃ j disp, items[j]? = some (.enter target) ∧
    bytesAt out (placeOf avx count items k) (placeholderSize cond)
      = farBytes disp cond ∧
    (placeOf avx count items k + placeholderSize cond : Int) + disp.toInt
      = placeOf avx count items j

section Finish

variable {avx : Bool} {count : Nat} {items : List Item} {stream : Stream} {out : List UInt8}

theorem of_finish (hfinish : stream.finish = .ok out) :
    stream.position < twoPow 63 ∧ stream.near = none ∧
      ∃ filled, FilledBy stream.jumps.toList stream.blocks filled ∧
        Spliced 0 stream.code.toList (filled ++ stream.patches.toList) out := by
  unfold Stream.finish at hfinish
  split at hfinish
  next => cases hfinish
  next hbound =>
    split at hfinish
    next => cases hfinish
    next hnear =>
      obtain ⟨resolution, hresolve, hlin⟩ := of_bind hfinish
      refine ⟨Nat.lt_of_not_le hbound, ?_, spliced_of_linearize hresolve hlin⟩
      exact Option.not_isSome_iff_eq_none.mp hnear

variable {filled : List Edit}
  (hspliced : Spliced 0 stream.code.toList (filled ++ stream.patches.toList) out)
include hspliced

/-- An edit stands at its place in the code. -/
theorem bytesAt_of_edit (hedit : edit ∈ filled ++ stream.patches.toList) :
    bytesAt out edit.position edit.bytes.length = edit.bytes := by
  refine bytesAt_eq fun i hi => ?_
  have hbyte := hspliced.edited edit hedit i hi
  rwa [Nat.sub_zero] at hbyte

variable (hfilled : FilledBy stream.jumps.toList stream.blocks filled)

include hfilled in
/-- Far jumps are filled in, even if steps have failed. -/
theorem farFilled_of_spliced (hstream : (Stream.new avx count).carryOn items = stream)
    (hbound : stream.position < twoPow 63) {k : Nat} {far : Option Condition} {target : Nat}
    (hk : items[k]? = some (.jump far target)) : FarFilled avx count items out k far target := by
  rw [← standing_length] at hstream
  subst hstream
  have hkLength := lt_length hk
  have hrecorded : jumpAt (placeOf avx count items k) far target ∈
      (standing avx count items items.length).jumps.toList :=
    (mem_jumps_standing_iff (Nat.le_refl _)).mpr ⟨k, hkLength, far, target, hk, rfl⟩
  obtain ⟨edit, hedit, off, hoff, hfill⟩ := exists_mem_of_forall₂ hfilled.flip hrecorded
  obtain ⟨landing, hland, hvalue⟩ := of_offset hoff
  obtain ⟨j, hj, hent, rfl⟩ := exists_enter_of_standing (Nat.le_refl _) hland
  obtain ⟨disp, hdisp, rfl⟩ := of_edit hfill
  refine ⟨j, disp, hent, ?_, ?_⟩
  · rw [← length_farBytes disp far]
    exact bytesAt_of_edit hspliced (mem_append_left _ hedit)
  · -- All positions involved lie in the code, so taking them as signed words changes nothing.
    have hstop := placeOf_succ (@advances_jump_standing avx count _ _ _ _ hk) hkLength.le
    rw [Item.emitted, length_replicate] at hstop
    have hinside : placeOf avx count items (k + 1) < twoPow 63 :=
      (placeOf_mono hkLength (Nat.le_refl _)).trans_lt hbound
    have htarget : placeOf avx count items j < twoPow 63 :=
      (placeOf_mono hj.le (Nat.le_refl _)).trans_lt hbound
    dsimp only [jumpAt] at hvalue
    rw [signedPosition_eq htarget, signedPosition_eq (by omega),
      signedPosition_eq (by omega)] at hvalue
    omega

variable (hlaid : Laid avx count items stream)
include hlaid hfilled

theorem kept_of_spliced (pos : Nat) (hclear : ∀ k item, items[k]? = some item → item.isPlaceholder →
      pos < startOf avx items k ∨ startOf avx items (k + 1) ≤ pos) :
    out[pos]? = stream.code[pos]? := by
  rw [← Array.getElem?_toList]
  refine hspliced.kept pos fun edit hedit => ?_
  rw [Nat.zero_add]
  rcases mem_append.mp hedit with hedit | hpatch
  · obtain ⟨jump, hjump, off, -, hoff⟩ := exists_mem_of_forall₂ hfilled hedit
    obtain ⟨k, cond, target, hk, rfl⟩ := (hlaid.jumps jump).mp hjump
    obtain ⟨disp, -, rfl⟩ := of_edit hoff
    have hstart := hclear k _ hk rfl
    rw [startOf_succ avx hk, Item.emitted, length_replicate, ← length_farBytes disp cond] at hstart
    exact hstart
  · obtain ⟨k, j, cond, hk, -, hnear⟩ := hlaid.patches edit hpatch
    obtain ⟨disp, -, rfl⟩ := of_nearPatch hnear
    have hstart := hclear k _ hk rfl
    rw [startOf_succ avx hk, Item.emitted, length_replicate] at hstart
    exact hstart

omit hlaid in
theorem far_of_spliced (hemit : (Stream.new avx count).emit items = .ok stream)
    (hbound : stream.position < twoPow 63) (k : Nat) (cond : Option Condition) (target : Nat)
    (hk : items[k]? = some (.jump cond target)) :
    ∃ j disp, items[j]? = some (.enter target) ∧
      stream.blocks[target]? = some (some (startOf avx items j)) ∧
      bytesAt out (startOf avx items k) (placeholderSize cond) = farBytes disp cond ∧
      (startOf avx items k + placeholderSize cond : Int) + disp.toInt = startOf avx items j := by
  obtain ⟨j, disp, hj, hbytes, hvalue⟩ :=
    farFilled_of_spliced hspliced hfilled (steps_of_emit hemit).1.symm hbound hk
  rw [placeOf_eq_startOf hemit (lt_length hk).le] at hbytes hvalue
  rw [placeOf_eq_startOf hemit (lt_length hj).le] at hvalue
  exact ⟨j, disp, hj, ((laid_of_emit hemit).blocks target _).mpr ⟨j, hj, rfl⟩, hbytes, hvalue⟩

omit hfilled in
theorem near_of_spliced (hclosed : stream.near = none) (k : Nat) (cond : Condition)
    (hk : items[k]? = some (.openNear cond)) : ∃ j disp, ClosedBy items k j ∧
      bytesAt out (startOf avx items k) 2 = nearBytes disp cond ∧
      (startOf avx items k + 2 : Int) + disp.toInt = startOf avx items j := by
  obtain ⟨j, patch, hj, hmem, hpatch⟩ := hlaid.closed hclosed k cond hk
  obtain ⟨disp, hvalue, rfl⟩ := of_nearPatch hpatch
  exact ⟨j, disp, hj, bytesAt_of_edit hspliced (mem_append_right _ hmem), hvalue⟩

end Finish

/-- Whatever was emitted, finished code has the bytes of the stream, and every jump in it lands
where it was meant to: on the start of its block, or where it was closed. -/
theorem finish_lands {avx : Bool} {count : Nat} {items : List Item} {stream : Stream}
    {out : List UInt8} (hemit : (Stream.new avx count).emit items = .ok stream)
    (hfinish : stream.finish = .ok out) : Lands avx items stream out := by
  have hlaid := laid_of_emit hemit
  obtain ⟨hbound, hclosed, filled, hfilled, hspliced⟩ := of_finish hfinish
  exact {
    length := hspliced.length.trans Array.length_toList
    emitted := hlaid.code
    kept := kept_of_spliced hspliced hfilled hlaid
    far := far_of_spliced hspliced hfilled hemit hbound
    near := near_of_spliced hspliced hlaid hclosed }

/-- A near jump over a byte, a jump forward and a jump back. -/
def jumpSample : List Item :=
  [.enter 0, .openNear .equal, .bytes [0x90], .closeNear, .jump (some .less) 1, .jump none 0,
    .enter 1, .instr .ret]

/-- What the sample leaves in the stream. -/
def jumpSampleStream : Stream where
  avx := false
  code := #[0, 0, 0x90, 0, 0, 0, 0, 0, 0, 0, 0, 0, 0, 0, 0xC3]
  blocks := #[some 0, some 14]
  jumps := #[jumpAt 3 (some .less) 1, jumpAt 9 none 0]
  patches := #[⟨0, [0x74, 1]⟩]

theorem finish_jumpSampleStream : jumpSampleStream.finish =
    .ok [0x74, 1, 0x90, 0x0F, 0x8C, 5, 0, 0, 0, 0xE9, 242, 255, 255, 255, 0xC3] := by
  have hsorted : (([⟨3, [0x0F, 0x8C, 5, 0, 0, 0]⟩, ⟨9, [0xE9, 242, 255, 255, 255]⟩] ++
      [⟨0, [0x74, 1]⟩] : List Edit).mergeSort fun a b => decide (a.position ≤ b.position)) =
      [⟨0, [0x74, 1]⟩, ⟨3, [0x0F, 0x8C, 5, 0, 0, 0]⟩, ⟨9, [0xE9, 242, 255, 255, 255]⟩] := by
    cbv
  change splice 0 _ (List.mergeSort ([⟨3, [0x0F, 0x8C, 5, 0, 0, 0]⟩,
    ⟨9, [0xE9, 242, 255, 255, 255]⟩] ++ [⟨0, [0x74, 1]⟩]) _) = _
  rw [hsorted]
  rfl

theorem finish_lands_jumpSample : (Stream.new false 2).emit jumpSample = .ok jumpSampleStream ∧
      Lands false jumpSample jumpSampleStream
        [0x74, 1, 0x90, 0x0F, 0x8C, 5, 0, 0, 0, 0xE9, 242, 255, 255, 255, 0xC3] :=
  ⟨rfl, @finish_lands false 2 jumpSample _ _ rfl finish_jumpSampleStream⟩

end GraphJit.Code
