import GraphJit.Proofs.JumpTargets

/-! # Placeholders after failed steps

Emission can go on after a step has failed. Most steps that fail leave the stream
alone. Closing a near jump that has become too long is different: the jump counts
as closed, but no patch is kept for it. The main statement says what follows for
code that is finished all the same. Every far jump is filled in. A near jump is
filled in exactly if its closing did not fail; otherwise its placeholder is still
there, as zeros. (An instruction that cannot be encoded never becomes an item.)
-/

namespace GraphJit.Code

open X64 List Code.Stream

/-- The placeholder of the near jump at item `k` has become a jump to where it was closed. -/
def NearFilled (avx : Bool) (count : Nat) (items : List Item) (out : List UInt8) (k : Nat)
    (cond : Condition) : Prop :=
  ∃ j disp, ClosedBy items k j ∧
    bytesAt out (placeOf avx count items k) 2 = nearBytes disp cond ∧
    (placeOf avx count items k + 2 : Int) + disp.toInt = placeOf avx count items j

/-! ## Finished code -/

theorem ClosedBy.unique {items : List Item} {k j l : Nat} (hj : ClosedBy items k j)
    (hl : ClosedBy items k l) : j = l := by
  rcases Nat.lt_trichotomy j l with hlt | heq | hgt
  · exact absurd hj.2.1 (hl.2.2 j hj.1 hlt)
  · exact heq
  · exact absurd hl.2.1 (hj.2.2 l hl.1 hgt)

theorem nearBytes_ne_zeros (disp : BitVec 8) (cond : Condition) : nearBytes disp cond ≠ [0, 0] := by
  intro hzeros
  have hcode := (List.cons.inj hzeros).1
  cases cond <;> cases hcode

section Finish

variable {avx : Bool} {count : Nat} {items : List Item} {out : List UInt8} {filled : List Edit}
  {k j : Nat} {cond : Condition}
  (hspliced : Spliced 0 ((Stream.new avx count).carryOn items).code.toList
    (filled ++ ((Stream.new avx count).carryOn items).patches.toList) out)
  (hfilled : FilledBy ((Stream.new avx count).carryOn items).jumps.toList
    ((Stream.new avx count).carryOn items).blocks filled)
include hspliced

theorem nearFilled_of_patch (hclosed : ClosedBy items k j) {patch : Edit}
    (hmem : patch ∈ ((Stream.new avx count).carryOn items).patches.toList)
    (hpatch : nearPatch ⟨placeOf avx count items k, cond⟩ (placeOf avx count items j)
      = .ok patch) : NearFilled avx count items out k cond := by
  obtain ⟨disp, hvalue, rfl⟩ := of_nearPatch hpatch
  exact ⟨j, disp, hclosed, bytesAt_of_edit hspliced (mem_append_right _ hmem), hvalue⟩

include hfilled in
omit hspliced in
/-- Nothing is written over the placeholder of a near jump whose closing failed. -/
theorem clear_of_overruns (hopens : Opens avx count items k cond)
    (hclosed : ClosedBy items k j) (hoverruns : Overruns avx count items j) {edit : Edit}
    (hedit : edit ∈ filled ++ ((Stream.new avx count).carryOn items).patches.toList) :
    placeOf avx count items k + 2 ≤ edit.position ∨ edit.stop ≤ placeOf avx count items k := by
  rw [← standing_length] at hfilled hedit
  have hkLength := lt_length hopens.1
  rcases mem_append.mp hedit with hfar | hnear
  · obtain ⟨jump, hjump, off, -, hfill⟩ := exists_mem_of_forall₂ hfilled hfar
    obtain ⟨m, hm, far, target, hitem, rfl⟩ := (mem_jumps_standing_iff (Nat.le_refl _)).mp hjump
    obtain ⟨disp, -, rfl⟩ := of_edit hfill
    have hne : k ≠ m := by
      rintro rfl
      rw [hopens.1] at hitem
      cases hitem
    have hapart := placeOf_apart hopens.advances (advances_jump_standing hitem) hkLength hm hne
    rw [Item.emitted, Item.emitted, length_replicate, length_replicate,
      ← length_farBytes disp far] at hapart
    exact hapart
  · obtain ⟨m, l, other, hother, hclosed', hpatch⟩ := exists_closed_of_patch (Nat.le_refl _) hnear
    have hne : k ≠ m := by
      -- the near jump itself has no patch, since there is none for the distance
      rintro rfl
      obtain rfl := hclosed.unique hclosed'
      have hpend := hother.near_eq hclosed.1 (lt_length hclosed.2.1).le hclosed.2.2
      obtain ⟨cause, hcause⟩ := (closeNear_fails_iff hpend).mp hoverruns.2.2
      cases hpatch.symm.trans hcause
    obtain ⟨disp, -, rfl⟩ := of_nearPatch hpatch
    exact placeOf_apart hopens.advances hother.advances hkLength (lt_length hother.1) hne

include hfilled in
theorem zeros_of_overruns (hopens : Opens avx count items k cond)
    (hclosed : ClosedBy items k j) (hoverruns : Overruns avx count items j) :
    bytesAt out (placeOf avx count items k) 2 = [0, 0] := by
  change bytesAt out _ ([0, 0] : List UInt8).length = _
  apply bytesAt_eq
  intro i hi
  have hi : i < 2 := hi
  have hkept := hspliced.kept (placeOf avx count items k + i) fun edit hedit => by
    have hclear := clear_of_overruns hfilled hopens hclosed hoverruns hedit
    omega
  rw [hkept, ← standing_length]
  obtain ⟨bytes, hbytes⟩ :=
    @exists_code_append avx count items (k + 1) _ (lt_length hopens.1) (Nat.le_refl _)
  have hplace : placeOf avx count items k = (standing avx count items k).code.toList.length :=
    Array.length_toList.symm
  rw [hbytes, hopens.advances.code, Item.emitted, hplace, append_assoc,
    getElem?_append_right (Nat.le_add_right _ _), Nat.add_sub_cancel_left,
    getElem?_append_left (by rw [length_replicate]; exact hi)]
  rfl

end Finish

/-- Code can be finished after steps that failed. Its far jumps are all filled in then, and of
its near jumps those whose closing did not fail. -/
theorem finish_fills_iff {avx : Bool} {count : Nat} {items : List Item} {out : List UInt8}
    (hfinish : ((Stream.new avx count).carryOn items).finish = .ok out) :
    (∀ k far target, items[k]? = some (.jump far target) →
        FarFilled avx count items out k far target) ∧
      (∀ k cond, Opens avx count items k cond → ∃ j, ClosedBy items k j ∧
        (NearFilled avx count items out k cond ↔ ¬Overruns avx count items j) ∧
        (Overruns avx count items j → bytesAt out (placeOf avx count items k) 2 = [0, 0])) ∧
      ((∀ k cond, Opens avx count items k cond →
        NearFilled avx count items out k cond) ↔ ∀ j, ¬Overruns avx count items j) := by
  obtain ⟨hbound, hnone, filled, hfilled, hspliced⟩ := of_finish hfinish
  have hnear : ∀ k cond, Opens avx count items k cond → ∃ j, ClosedBy items k j ∧
      (NearFilled avx count items out k cond ↔ ¬Overruns avx count items j) ∧
      (Overruns avx count items j → bytesAt out (placeOf avx count items k) 2 = [0, 0]) := by
    intro k cond hopens
    obtain ⟨j, hclosed⟩ := hopens.exists_closedBy hnone
    refine ⟨j, hclosed, ⟨?_, ?_⟩, zeros_of_overruns hspliced hfilled hopens hclosed⟩
    · rintro ⟨-, disp, -, hbytes, -⟩ hoverruns
      rw [zeros_of_overruns hspliced hfilled hopens hclosed hoverruns] at hbytes
      exact nearBytes_ne_zeros disp cond hbytes.symm
    · intro hfits
      obtain ⟨patch, hmem, hpatch⟩ := hopens.exists_patch hclosed hfits
      exact nearFilled_of_patch hspliced hclosed hmem hpatch
  refine ⟨fun k far target => farFilled_of_spliced hspliced hfilled rfl hbound, hnear, ?_, ?_⟩
  · intro hall j hoverruns
    obtain ⟨near, hopen⟩ := Option.isSome_iff_exists.mp hoverruns.2.1
    obtain ⟨k, hkj, hopens, -, hfree⟩ := exists_opens (lt_length hoverruns.1).le hopen
    obtain ⟨l, hclosed, hiff, -⟩ := hnear k near.condition hopens
    obtain rfl := hclosed.unique ⟨hkj, hoverruns.1, hfree⟩
    exact hiff.mp (hall k near.condition hopens) hoverruns
  · intro hfits k cond hopens
    obtain ⟨j, -, hiff, -⟩ := hnear k cond hopens
    exact hiff.mpr (hfits j)

/-- Steps of which three fail: a second near jump while one is open, a second entry into a block,
and a closing with nothing to close. -/
def failingSample : List Item :=
  [.enter 0, .jump none 0, .openNear .equal, .openNear .less, .bytes [0x90], .enter 0, .closeNear,
    .closeNear]

def failingSampleCode : List UInt8 := [0xE9, 251, 255, 255, 255, 0x74, 1, 0x90]

theorem finish_fills_iff_failingSample :
    ((Stream.new false 1).carryOn failingSample).finish = .ok failingSampleCode ∧
      FarFilled false 1 failingSample failingSampleCode 1 none 0 ∧
      NearFilled false 1 failingSample failingSampleCode 2 .equal := by
  have hfinish : ((Stream.new false 1).carryOn failingSample).finish = .ok failingSampleCode := by
    change splice 0 _ (List.mergeSort ([⟨0, [0xE9, 251, 255, 255, 255]⟩] ++ [⟨5, [0x74, 1]⟩]) _) = _
    rw [List.mergeSort_of_pairwise (by decide)]
    rfl
  obtain ⟨hfar, hnear, -⟩ := finish_fills_iff hfinish
  obtain ⟨j, hclosed, hiff, -⟩ := hnear 2 .equal ⟨rfl, rfl⟩
  have hfree : ∀ m < 6, 2 < m → failingSample[m]? ≠ some .closeNear := by decide
  obtain rfl : j = 6 := hclosed.unique ⟨by decide, rfl, fun m hlow hhigh => hfree m hhigh hlow⟩
  refine ⟨hfinish, hfar 1 none 0 rfl, hiff.mpr ?_⟩
  rintro ⟨-, -, cause, hcause⟩
  cases hcause

/-- A near jump over too many bytes: closing it fails, but the code can be finished, and the
placeholder is left in it. -/
theorem finish_leaves_placeholder :
    (((Stream.new false 1).carryOn [.openNear .equal, .padding 128]).step .closeNear).2 =
        .error (.nearJumpOutOfRange 0 128 2 6) ∧
      ((Stream.new false 1).carryOn [.openNear .equal, .padding 128, .closeNear]).finish =
        .ok (List.replicate 130 0) ∧
      ¬NearFilled false 1 [.openNear .equal, .padding 128, .closeNear] (List.replicate 130 0) 0
        .equal := by
  refine ⟨by decide +kernel, by decide +kernel, ?_⟩
  rintro ⟨-, disp, -, hbytes, -⟩
  exact nearBytes_ne_zeros disp .equal hbytes.symm

end GraphJit.Code
