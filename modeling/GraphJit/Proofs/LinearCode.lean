import GraphJit.Proofs.FinishedCode

/-! # Code with all its edits

Jumps and patches may be listed in any order. They are applied exactly if each jump has
an offset that its placeholder can hold, and all edits lie inside the code and keep clear
of each other.
-/

namespace GraphJit.Code

open X64 List

variable {code : List UInt8} {jumps : List Jump} {resolution : Resolution} {patches : List Edit}

/-- Edits are applied exactly if they lie inside the code and keep clear of each other; then
each has its bytes in the result, and all other bytes are as they were. A patch holds an encoded
jump, so it is not empty. -/
theorem linearize_applies_edits (hpatches : ∀ patch ∈ patches, 0 < patch.bytes.length)
    (hsmall : ∀ edit ∈ editsOf jumps resolution.offsets patches, edit.stop < twoPow 64) :
    ((∃ out, linearize code jumps resolution patches = .ok out) ↔
      resolution.offsets.length = jumps.length ∧
        (∀ pair ∈ jumps.zip resolution.offsets, pair.1.Holds pair.2) ∧
        (editsOf jumps resolution.offsets patches).Pairwise Edit.Apart ∧
        ∀ edit ∈ editsOf jumps resolution.offsets patches, edit.stop ≤ code.length) ∧
    ∀ out, linearize code jumps resolution patches = .ok out → out.length = code.length ∧
      (∀ edit ∈ editsOf jumps resolution.offsets patches,
        bytesAt out edit.position edit.bytes.length = edit.bytes) ∧
      ∀ i, (∀ edit ∈ editsOf jumps resolution.offsets patches,
        i < edit.position ∨ edit.stop ≤ i) → out[i]? = code[i]? := by
  have hspliced {out : List UInt8} (hlin : linearize code jumps resolution patches = .ok out) :
      Spliced 0 code (editsOf jumps resolution.offsets patches) out :=
    (spliced_of_splice (linearize_eq_ok_iff.mp hlin).2.2).perm (mergeSort_perm ..)
  refine ⟨⟨?_, ?_⟩, ?_⟩
  · rintro ⟨out, hlin⟩
    obtain ⟨hcount, hholds, -⟩ := linearize_eq_ok_iff.mp hlin
    have hdone := hspliced hlin
    refine ⟨hcount, hholds, hdone.apart, fun edit hedit => ?_⟩
    exact (hdone.inside edit hedit).2.trans_eq (Nat.zero_add _)
  · rintro ⟨hcount, hholds, hapart, hinside⟩
    have hfull : ∀ edit ∈ editsOf jumps resolution.offsets patches, 0 < edit.bytes.length := by
      intro edit hedit
      rcases mem_append.mp hedit with hjump | hpatch
      · obtain ⟨pair, -, rfl⟩ := mem_map.mp hjump
        exact (length_farBytes ..).symm ▸ placeholderSize_pos _
      · exact hpatches edit hpatch
    obtain ⟨out, hout⟩ := exists_splice_sorted hfull hapart hinside hsmall
    exact ⟨out, linearize_eq_ok_iff.mpr ⟨hcount, hholds, hout⟩⟩
  · intro out hlin
    obtain ⟨hlength, -, hedited, hkept, -⟩ := hspliced hlin
    refine ⟨hlength, fun edit hedit => bytesAt_eq (hedited edit hedit), fun i hi => hkept i ?_⟩
    simpa only [Nat.zero_add] using hi

/-- A patch in front of a jump that ends with the code. -/
theorem linearize_applies_edits_adjacent : ∃ out,
    linearize [0, 0, 0, 0, 0, 0, 0] [⟨1, 2, none, 5⟩] ⟨[-7], 1⟩ [⟨0, [0x74, 5]⟩] = .ok out ∧
      bytesAt out 0 2 = [0x74, 5] := by
  have hsmall : ∀ edit ∈ editsOf [⟨1, 2, none, 5⟩] [-7] [⟨0, [0x74, 5]⟩],
      edit.stop < twoPow 64 := by decide
  obtain ⟨hiff, hresult⟩ := @linearize_applies_edits [0, 0, 0, 0, 0, 0, 0] [⟨1, 2, none, 5⟩]
    ⟨[-7], 1⟩ [⟨0, [0x74, 5]⟩] (by decide) hsmall
  obtain ⟨out, hout⟩ := hiff.mpr ⟨rfl, by unfold Jump.Holds; decide, by unfold Edit.Apart; decide,
    by decide⟩
  exact ⟨out, hout, (hresult out hout).2.1 ⟨0, [0x74, 5]⟩ (by decide)⟩

end GraphJit.Code
