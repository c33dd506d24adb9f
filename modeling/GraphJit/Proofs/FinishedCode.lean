import GraphJit.Proofs.JumpTargets
import Mathlib.Order.Nat

/-! # Code that can be finished

A stream is finished if no near jump is open, every far jump goes to a block that
was entered, and the code is short enough for offsets of four bytes: its
placeholders come in order and keep clear of each other, so that each can be
filled in. Code of any size that positions can count is finished or refused, but
never leads to a fault.
-/

namespace GraphJit.Code

open X64 List

/-! ## Placeholders come in order -/

/-- Stretches of code follow each other and end in front of a position. -/
def InOrder (spans : List (Nat × Nat)) (stop : Nat) : Prop :=
  (spans.Pairwise fun a b => a.2 ≤ b.1) ∧ ∀ span ∈ spans, span.2 ≤ stop

theorem InOrder.append {spans new : List (Nat × Nat)} {start stop : Nat}
    (horder : InOrder spans start) (hle : start ≤ stop) (hlength : new.length ≤ 1)
    (hnew : ∀ span ∈ new, span.1 = start ∧ span.2 ≤ stop) : InOrder (spans ++ new) stop := by
  have hpairwise : new.Pairwise fun a b => a.2 ≤ b.1 := by
    rcases new with - | ⟨span, - | ⟨other, rest⟩⟩
    · exact .nil
    · exact pairwise_singleton ..
    · simp at hlength
  constructor
  · refine pairwise_append.mpr ⟨horder.1, hpairwise, fun span hspan other hother => ?_⟩
    rw [(hnew other hother).1]
    exact horder.2 span hspan
  · intro span hspan
    rcases mem_append.mp hspan with hold | hlast
    · exact Nat.le_trans (horder.2 span hold) hle
    · exact (hnew span hlast).2

namespace Stream

/-- What near jumps take up, those that are closed and the one that is open. -/
def nearSpans (stream : Stream) : List (Nat × Nat) :=
  stream.patches.toList.map (fun patch => (patch.position, patch.stop)) ++
    stream.near.toList.map fun near => (near.position, near.position + 2)

/-- Far jumps and near jumps stand in the order of emission, clear of those of their kind. -/
structure Ordered (stream : Stream) : Prop where
  far : InOrder (stream.jumps.toList.map fun jump => (jump.position, jump.position + jump.size))
    stream.position
  near : InOrder stream.nearSpans stream.position

variable {stream next : Stream} {item : Item}

namespace Ordered

variable (hord : Ordered stream)
include hord

theorem jumps : stream.jumps.toList.Pairwise fun a b => a.position + a.size ≤ b.position :=
  pairwise_map.mp hord.far.1

theorem jumpStops : ∀ jump ∈ stream.jumps.toList, jump.position + jump.size ≤ stream.position :=
  fun _ hjump => hord.far.2 _ (mem_map_of_mem hjump)

theorem patches : stream.patches.toList.Pairwise fun a b => a.stop ≤ b.position :=
  pairwise_map.mp (pairwise_append.mp hord.near.1).1

theorem patchStops : ∀ patch ∈ stream.patches.toList, patch.stop ≤ stream.position :=
  fun _ hpatch => hord.near.2 _ (mem_append_left _ (mem_map_of_mem hpatch))

end Ordered

variable {pos : Nat}

/-- The record of an item covers what the item puts into the stream. -/
theorem mem_record {jump : Jump} (avx : Bool) (hjump : jump ∈ item.record pos) :
    jump.position = pos ∧ jump.size = (item.emitted avx).length := by
  cases item with
  | jump cond target =>
    rw [mem_singleton.mp hjump]
    exact ⟨rfl, (length_replicate ..).symm⟩
  | _ => cases hjump

theorem stop_of_nearPatch {near : NearJump} {patch : Edit}
    (hpatch : nearPatch near pos = .ok patch) :
    patch.position = near.position ∧ patch.stop = near.position + 2 := by
  obtain ⟨disp, -, rfl⟩ := of_nearPatch hpatch
  exact ⟨rfl, rfl⟩

/-- A near jump takes up its stretch when it is opened, and the patch that closes it has the
same. -/
theorem Advances.nearSpans (hstep : Advances stream item next) :
    next.nearSpans = stream.nearSpans ∨ next.position = stream.position + 2 ∧
      next.nearSpans = stream.nearSpans ++ [(stream.position, stream.position + 2)] := by
  by_cases hclose : item = .closeNear
  · obtain ⟨near, patch, hnear, hpatch, hclosed, hpatches⟩ := hstep.closes hclose
    obtain ⟨hstart, hstop⟩ := stop_of_nearPatch hpatch
    exact .inl (by simp [Stream.nearSpans, hnear, hclosed, hpatches, hstart, hstop])
  · by_cases hopen : ∃ cond, item = .openNear cond
    · obtain ⟨cond, rfl⟩ := hopen
      obtain ⟨hnone, hnear, hpatches⟩ := hstep.opens cond rfl
      exact .inr ⟨hstep.position_eq, by simp [Stream.nearSpans, hnone, hnear, hpatches]⟩
    · obtain ⟨hnear, hpatches⟩ := hstep.others (fun cond h => hopen ⟨cond, h⟩) hclose
      exact .inl (by rw [Stream.nearSpans, hnear, hpatches, Stream.nearSpans])

theorem Ordered.step (hord : Ordered stream) (hstep : Advances stream item next) :
    Ordered next := by
  have hpos := hstep.position_eq
  have hle : stream.position ≤ next.position := hpos ▸ Nat.le_add_right ..
  constructor
  · rw [hstep.jumps, map_append]
    refine hord.far.append hle ?_ fun span hspan => ?_
    · cases item <;> simp [Item.record]
    · obtain ⟨jump, hjump, rfl⟩ := mem_map.mp hspan
      obtain ⟨hstart, hsize⟩ := mem_record stream.avx hjump
      exact ⟨hstart, by rw [hpos, hstart, hsize]⟩
  · rcases hstep.nearSpans with hsame | ⟨hstop, hnew⟩
    · rw [hsame, ← append_nil stream.nearSpans]
      exact hord.near.append hle (by simp) (by simp)
    · rw [hnew]
      exact hord.near.append hle (by simp) (by simp [hstop])

theorem Ordered.emit (hord : Ordered stream) {items : List Item} {last : Stream}
    (hemit : stream.emit items = .ok last) : Ordered last := by
  induction items generalizing stream with
  | nil =>
    cases hemit
    exact hord
  | cons item items ih =>
    rw [Stream.emit] at hemit
    split at hemit
    next next hnext => exact ih (hord.step (advances_of_step hnext)) hemit
    next => cases hemit

end Stream

theorem ordered_of_emit {avx : Bool} {count : Nat} {items : List Item} {stream : Stream}
    (hemit : (Stream.new avx count).emit items = .ok stream) : stream.Ordered := by
  have hnew : (Stream.new avx count).Ordered := by
    constructor <;> simp [Stream.new, Stream.nearSpans, InOrder]
  exact hnew.emit hemit

/-! ## Filling in one jump -/

section OneJump

variable {blocks : Array (Option Nat)} {jump : Jump} {pos : Nat}

theorem wordDifference_eq_ok {value : Int} (hlow : -(twoPow 63 : Int) ≤ value)
    (hhigh : value < (twoPow 63 : Int)) : wordDifference value = .ok value := by
  have hfits : fitsSigned 64 value = true := decide_eq_true ⟨hlow, hhigh⟩
  rw [wordDifference, if_pos hfits]

theorem offset_eq_ok (htarget : blocks[jump.target]? = some (some pos)) (hpos : pos < twoPow 63)
    (hstop : jump.position + jump.size < twoPow 63) :
    jump.offset blocks = .ok ((pos : Int) - jump.position - jump.size) := by
  rw [Jump.offset, htarget]
  simp only [Option.join_some]
  rw [signedPosition_eq hpos, signedPosition_eq (by omega), signedPosition_eq (by omega),
    wordDifference_eq_ok (by omega) (by omega)]
  change ((wordDifference _ : Except Fault Int) : Outcome Int) = _
  rw [wordDifference_eq_ok (by omega) (by omega)]
  rfl

/-- A jump has an offset, or its block was never entered. -/
theorem faultless_offset (hent : ∀ b p : Nat, blocks[b]? = some (some p) → p < twoPow 63)
    (hstop : jump.position + jump.size < twoPow 63) : Faultless (jump.offset blocks) := by
  rcases htarget : blocks[jump.target]? with - | (- | pos)
  · rw [Jump.offset, htarget]
    exact faultless_error _
  · rw [Jump.offset, htarget]
    exact faultless_error _
  · rw [offset_eq_ok htarget (hent _ _ htarget) hstop]
    exact faultless_ok _

theorem faultless_edit (jump : Jump) (off : Int) : Faultless (jump.edit off) := by
  refine (faultless_liftM_encoding (jump.encode off)).bind fun bytes _ => ?_
  exact Faultless.ite (faultless_error _) (faultless_ok _)

end OneJump

/-! ## Finishing a stream -/

section Finish

variable {avx : Bool} {count : Nat} {items : List Item} {stream : Stream}
  (hlaid : Laid avx count items stream)
include hlaid

theorem Laid.entered_le {b p : Nat} (hent : stream.blocks[b]? = some (some p)) :
    p ≤ stream.position := by
  obtain ⟨k, hk, rfl⟩ := (hlaid.blocks b p).mp hent
  rw [hlaid.position_eq]
  exact startOf_mono avx items (lt_length hk).le

variable {jump : Jump}

theorem Laid.size_of_jump (hjump : jump ∈ stream.jumps.toList) :
    jump.size = placeholderSize jump.condition := by
  obtain ⟨k, cond, target, -, rfl⟩ := (hlaid.jumps jump).mp hjump
  rfl

/-- A far jump and a patch belong to different items. -/
theorem Laid.jump_apart_patch {patch : Edit} (hjump : jump ∈ stream.jumps.toList)
    (hpatch : patch ∈ stream.patches.toList) :
    jump.position + jump.size ≤ patch.position ∨ patch.stop ≤ jump.position := by
  obtain ⟨k, cond, target, hk, rfl⟩ := (hlaid.jumps jump).mp hjump
  obtain ⟨m, j, near, hm, -, hnear⟩ := hlaid.patches patch hpatch
  obtain ⟨hstart, hstop⟩ := Stream.stop_of_nearPatch hnear
  have hfar : (Item.emitted avx (.jump cond target)).length = placeholderSize cond :=
    length_replicate ..
  have hshort : (Item.emitted avx (.openNear near)).length = 2 := rfl
  rw [hstart, hstop]
  rcases Nat.lt_trichotomy k m with hlt | rfl | hlt
  · have hclear := stop_le_startOf avx hk hlt
    rw [hfar] at hclear
    exact .inl hclear
  · rw [hk] at hm
    cases hm
  · have hclear := stop_le_startOf avx hm hlt
    rw [hshort] at hclear
    exact .inr hclear

end Finish

variable {edits : List Edit} {jumps : List Jump} {blocks : Array (Option Nat)}

/-- Edits inside the code that keep clear of each other come in ascending order after sorting, and
so go through. -/
theorem exists_splice_sorted {code : List UInt8} (hlength : ∀ edit ∈ edits, 0 < edit.bytes.length)
    (hapart : edits.Pairwise Edit.Apart) (hinside : ∀ edit ∈ edits, edit.stop ≤ code.length)
    (hsmall : ∀ edit ∈ edits, edit.stop < twoPow 64) : ∃ out, splice 0 code
      (edits.mergeSort fun a b => decide (a.position ≤ b.position)) = .ok out := by
  let sorted := edits.mergeSort fun a b => decide (a.position ≤ b.position)
  have hperm : sorted.Perm edits := mergeSort_perm ..
  have hsorted : sorted.Pairwise fun a b => decide (a.position ≤ b.position) := by
    apply pairwise_mergeSort
    · intro a b c hab hbc
      rw [decide_eq_true_iff] at hab hbc ⊢
      exact Nat.le_trans hab hbc
    · intro a b
      rw [Bool.or_eq_true, decide_eq_true_iff, decide_eq_true_iff]
      exact Nat.le_total ..
  have hclear : sorted.Pairwise Edit.Apart := by
    refine (hperm.pairwise_iff ?_).mpr hapart
    intro a b hab
    exact hab.symm
  have hord : sorted.Pairwise fun a b => a.stop ≤ b.position := by
    refine (hsorted.and hclear).imp_of_mem ?_
    rintro a b ha hb ⟨hle, hab | hba⟩
    · exact hab
    · have hpositive := hlength b (hperm.mem_iff.mp hb)
      rw [decide_eq_true_iff] at hle
      rw [Edit.stop] at hba
      omega
  simp only [← hperm.mem_iff] at hinside hsmall
  refine exists_splice (fun _ _ => Nat.zero_le _) (fun edit hedit => ?_) hsmall hord
  rw [Nat.zero_add]
  exact hinside edit hedit

theorem placeholderSize_pos (cond : Option Condition) : 0 < placeholderSize cond := by
  cases cond <;> exact Nat.succ_pos _

/-- An edit of a far jump covers its placeholder. -/
theorem stop_of_edit {jump : Jump} (hsize : jump.size = placeholderSize jump.condition) {off : Int}
    {edit : Edit} (hedit : jump.edit off = .ok edit) :
    edit.position = jump.position ∧ edit.stop = jump.position + jump.size := by
  obtain ⟨disp, -, rfl⟩ := of_edit hedit
  refine ⟨rfl, ?_⟩
  rw [Edit.stop, length_farBytes, hsize]

theorem FilledBy.pairwise {filled : List Edit} (hfilled : FilledBy jumps blocks filled)
    (hsizes : ∀ jump ∈ jumps, jump.size = placeholderSize jump.condition)
    (hclear : jumps.Pairwise fun a b => a.position + a.size ≤ b.position) :
    filled.Pairwise fun a b => a.stop ≤ b.position := by
  induction hfilled with
  | nil => exact .nil
  | cons hfirst hrest ih =>
    obtain ⟨hbehind, hclear⟩ := pairwise_cons.mp hclear
    obtain ⟨hsize, hsizes⟩ := forall_mem_cons.mp hsizes
    refine pairwise_cons.mpr ⟨fun edit hedit => ?_, ih hsizes hclear⟩
    obtain ⟨off, -, hfirst⟩ := hfirst
    obtain ⟨other, hother, _, -, hedit⟩ := exists_mem_of_forall₂ hrest hedit
    rw [(stop_of_edit hsize hfirst).2, (stop_of_edit (hsizes other hother) hedit).1]
    exact hbehind other hother

/-- How far a jump has to go to a block that was entered. -/
def landingOffset (blocks : Array (Option Nat)) (jump : Jump) : Int :=
  (blocks[jump.target]?.join.getD 0 : Nat) - jump.position - jump.size

/-- What is changed in the code: the placeholders of the jumps, and the patches. -/
def editsOf (jumps : List Jump) (offsets : List Int) (patches : List Edit) : List Edit :=
  (jumps.zip offsets).map (fun pair => pair.1.filling pair.2) ++ patches

section Filling

variable {code out : List UInt8} {resolution : Resolution} {patches : List Edit}

theorem mapM_edit {pairs : List (Jump × Int)} (hholds : ∀ pair ∈ pairs, pair.1.Holds pair.2) :
    pairs.mapM (fun pair => pair.1.edit pair.2) =
      .ok (pairs.map fun pair => pair.1.filling pair.2) :=
  mapM_eq_ok _ fun pair hpair => edit_eq_ok_iff.mpr ⟨hholds pair hpair, rfl⟩

theorem linearize_eq_ok_iff : linearize code jumps resolution patches = .ok out ↔
    resolution.offsets.length = jumps.length ∧
      (∀ pair ∈ jumps.zip resolution.offsets, pair.1.Holds pair.2) ∧
      splice 0 code ((editsOf jumps resolution.offsets patches).mergeSort
        fun a b => decide (a.position ≤ b.position)) = .ok out := by
  unfold linearize
  split
  next hcount => exact iff_of_false (by simp) fun h => hcount h.1
  next hcount =>
    rw [bind_eq_ok, and_iff_right (not_not.mp hcount)]
    constructor
    · rintro ⟨filled, hfilled, hsplice⟩
      have hholds : ∀ pair ∈ jumps.zip resolution.offsets, pair.1.Holds pair.2 := fun pair hpair =>
        (of_mapM_eq_ok hfilled pair hpair).elim fun _ hedit => (edit_eq_ok_iff.mp hedit).1
      obtain rfl := Except.ok.inj ((mapM_edit hholds).symm.trans hfilled)
      exact ⟨hholds, hsplice⟩
    · rintro ⟨hholds, hsplice⟩
      exact ⟨_, mapM_edit hholds, hsplice⟩

end Filling

/-- Every far jump has its block. -/
def Stream.Landing (stream : Stream) : Prop :=
  ∀ jump ∈ stream.jumps.toList, ∃ p, stream.blocks[jump.target]? = some (some p)

section Finish

variable {avx : Bool} {count : Nat} {items : List Item} {stream : Stream}
  (hlaid : Laid avx count items stream) (hord : stream.Ordered)
include hlaid hord

theorem mapM_offset (hbound : stream.position < twoPow 63) (hent : stream.Landing) :
    stream.jumps.toList.mapM (Jump.offset stream.blocks)
      = .ok (stream.jumps.toList.map (landingOffset stream.blocks)) := by
  refine mapM_eq_ok (landingOffset stream.blocks) ?_
  intro jump hjump
  obtain ⟨p, hp⟩ := hent jump hjump
  have hle := hlaid.entered_le hp
  have hstop := hord.jumpStops jump hjump
  rw [offset_eq_ok hp (by omega) (by omega)]
  simp [landingOffset, hp]

theorem holds_landingOffset (hshort : stream.position < twoPow 31) {jump : Jump}
    (hjump : jump ∈ stream.jumps.toList) {p : Nat}
    (hp : stream.blocks[jump.target]? = some (some p)) :
    jump.Holds (landingOffset stream.blocks jump) := by
  have hle := hlaid.entered_le hp
  have hstop := hord.jumpStops jump hjump
  refine ⟨?_, (length_farBytes ..).trans (hlaid.size_of_jump hjump).symm⟩
  -- both ends lie below 2 ^ 31, so the distance is a displacement of 32 bits
  simp only [fitsWord, fitsSigned, landingOffset, hp, decide_eq_true_iff, Option.join_some,
    Option.getD_some, Nat.reduceSub]
  omega

variable {filled : List Edit} (hfilled : FilledBy stream.jumps.toList stream.blocks filled)
include hfilled

theorem pairwise_edits : (filled ++ stream.patches.toList).Pairwise Edit.Apart := by
  rw [pairwise_append]
  have hsizes : ∀ jump ∈ stream.jumps.toList, jump.size = placeholderSize jump.condition :=
    fun jump hjump => hlaid.size_of_jump hjump
  refine ⟨(hfilled.pairwise hsizes hord.jumps).imp .inl, hord.patches.imp .inl, ?_⟩
  intro edit hedit patch hpatch
  obtain ⟨jump, hjump, off, -, hoff⟩ := exists_mem_of_forall₂ hfilled hedit
  obtain ⟨hstart, hstop⟩ := stop_of_edit (hlaid.size_of_jump hjump) hoff
  rw [Edit.Apart, hstart, hstop]
  exact hlaid.jump_apart_patch hjump hpatch

/-- Edits lie inside the code and are not empty. -/
theorem edits_inside {edit : Edit} (hedit : edit ∈ filled ++ stream.patches.toList) :
    edit.stop ≤ stream.position ∧ 0 < edit.bytes.length := by
  rcases mem_append.mp hedit with hfar | hpatch
  · obtain ⟨jump, hjump, off, -, hoff⟩ := exists_mem_of_forall₂ hfilled hfar
    refine ⟨(stop_of_edit (hlaid.size_of_jump hjump) hoff).2 ▸ hord.jumpStops jump hjump, ?_⟩
    obtain ⟨disp, -, rfl⟩ := of_edit hoff
    rw [length_farBytes]
    exact placeholderSize_pos _
  · obtain ⟨k, j, cond, -, -, hpatched⟩ := hlaid.patches edit hpatch
    obtain ⟨disp, -, rfl⟩ := of_nearPatch hpatched
    exact ⟨hord.patchStops _ hpatch, by simp [nearBytes]⟩

theorem stop_lt_of_edits (hbound : stream.position < twoPow 63) :
    ∀ edit ∈ filled ++ stream.patches.toList, edit.stop < twoPow 64 := fun _ hedit =>
  ((edits_inside hlaid hord hfilled hedit).1.trans_lt hbound).trans (by decide : twoPow 63 < _)

theorem exists_splice_edits (hbound : stream.position < twoPow 63) :
    ∃ out, splice 0 stream.code.toList ((filled ++ stream.patches.toList).mergeSort
      fun a b => decide (a.position ≤ b.position)) = .ok out := by
  refine exists_splice_sorted (fun _ hedit => (edits_inside hlaid hord hfilled hedit).2)
    (pairwise_edits hlaid hord hfilled) (fun _ hedit => ?_)
    (stop_lt_of_edits hlaid hord hfilled hbound)
  rw [Array.length_toList]
  exact (edits_inside hlaid hord hfilled hedit).1

omit hfilled
/-- Short code in which no near jump is open and every far jump has its block is finished. -/
theorem exists_finish (hnear : stream.near = none) (hshort : stream.position < twoPow 31)
    (hent : stream.Landing) : ∃ out, stream.finish = .ok out := by
  have hbound : stream.position < twoPow 63 := hshort.trans (by decide)
  obtain ⟨resolution, hresolve, hoffs, -⟩ := exists_resolve (mapM_offset hlaid hord hbound hent)
  have hholds : ∀ pair ∈ stream.jumps.toList.zip resolution.offsets, pair.1.Holds pair.2 := by
    rw [hoffs, ← map_prod_left_eq_zip, forall_mem_map]
    intro jump hjump
    obtain ⟨p, hp⟩ := hent jump hjump
    exact holds_landingOffset hlaid hord hshort hjump hp
  obtain ⟨out, hout⟩ := exists_splice_edits hlaid hord
    (filledBy_of_mapM (of_settle hresolve) (mapM_edit hholds)) hbound
  refine ⟨out, ?_⟩
  rw [Stream.finish, if_neg (Nat.not_le.mpr hbound), hnear, if_neg (by decide)]
  refine bind_eq_ok.mpr ⟨resolution, hresolve, linearize_eq_ok_iff.mpr ⟨?_, hholds, hout⟩⟩
  rw [hoffs, length_map]

omit hlaid hord in
/-- What finished code has shown: no near jump is open, and every far jump has its block. -/
theorem finishable_of_finish {out : List UInt8} (hfinish : stream.finish = .ok out) :
    stream.near = none ∧ stream.Landing := by
  obtain ⟨-, hnear, filled, hfilled, -⟩ := of_finish hfinish
  refine ⟨hnear, ?_⟩
  intro jump hjump
  obtain ⟨edit, -, off, hoff, -⟩ := exists_mem_of_forall₂ hfilled.flip hjump
  obtain ⟨p, hp, -⟩ := of_offset hoff
  exact ⟨p, hp⟩

end Finish

/-! ## No faults -/

theorem faultless_settle (hoff : ∀ jump ∈ jumps, Faultless (jump.offset blocks))
    (fuel iterations : Nat) (known : List (Option Int)) :
    Faultless (settle jumps blocks fuel iterations known) := by
  induction fuel generalizing iterations known with
  | zero =>
    rw [settle]
    refine (Faultless.mapM hoff).bind fun offsets _ => ?_
    exact Faultless.ite (faultless_ok _) (faultless_error _)
  | succ fuel ih =>
    rw [settle]
    refine (Faultless.mapM hoff).bind fun offsets _ => ?_
    exact Faultless.ite (faultless_ok _) (ih _ _)

theorem faultless_splice {cursor : Nat} {rest : List UInt8}
    (hstop : ∀ edit ∈ edits, edit.stop < twoPow 64) : Faultless (splice cursor rest edits) := by
  induction edits generalizing cursor rest with
  | nil => exact faultless_ok rest
  | cons edit edits ih =>
    obtain ⟨hfirst, hothers⟩ := forall_mem_cons.mp hstop
    rw [splice]
    refine (faultless_liftM_fault (Edit.finish_eq_ok hfirst)).bind fun finish _ => ?_
    refine Faultless.ite (faultless_error _) ?_
    exact (ih hothers).bind fun tail _ => faultless_ok _

section Finish

variable {avx : Bool} {count : Nat} {items : List Item} {stream : Stream}
  (hlaid : Laid avx count items stream) (hord : stream.Ordered)
include hlaid hord

theorem faultless_finish (hbound : stream.position < twoPow 63) : Faultless stream.finish := by
  rw [Stream.finish, if_neg (Nat.not_le.mpr hbound)]
  refine Faultless.ite (faultless_error _) ?_
  have hoff : ∀ jump ∈ stream.jumps.toList, Faultless (jump.offset stream.blocks) := by
    intro jump hjump
    refine faultless_offset ?_ ((hord.jumpStops jump hjump).trans_lt hbound)
    exact fun b p hent => (hlaid.entered_le hent).trans_lt hbound
  refine (faultless_settle hoff _ _ _).bind fun resolution hresolution => ?_
  refine Faultless.ite (faultless_error _) ?_
  refine (Faultless.mapM fun pair _ => faultless_edit pair.1 pair.2).bind fun filled hmapM => ?_
  -- far jumps fill their placeholders exactly, so all edits stop inside the code
  have hfilled := filledBy_of_mapM (of_settle hresolution) hmapM
  refine faultless_splice fun edit hedit => ?_
  exact stop_lt_of_edits hlaid hord hfilled hbound edit (mem_mergeSort.mp hedit)

end Finish

end GraphJit.Code
