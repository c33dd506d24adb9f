import GraphJit.Code.Edit
import GraphJit.Proofs.Results

/-! # Code with its placeholders filled in

Edits that go through lie inside the code and keep clear of each other. The result
has the bytes of every edit at its place and the old bytes everywhere else. Whether
edits go through depends on where they stand only.
-/

namespace GraphJit.Code

open X64 List

/-- Some bytes of the code. -/
def bytesAt (code : List UInt8) (pos count : Nat) : List UInt8 :=
  (code.drop pos).take count

variable {jumps : List Jump} {blocks : Array (Option Nat)} {code rest out : List UInt8}
  {edit : Edit} {cursor : Nat} {edits : List Edit} {resolution : Resolution} {offsets : List Int}

theorem bytesAt_eq {bytes : List UInt8} {pos : Nat}
    (hbytes : ∀ i < bytes.length, code[pos + i]? = bytes[i]?) :
    bytesAt code pos bytes.length = bytes := by
  refine ext_getElem? fun i => ?_
  rw [bytesAt, getElem?_take, getElem?_drop]
  split
  next hi => exact hbytes i hi
  next hi => rw [getElem?_eq_none (Nat.le_of_not_lt hi)]

/-- First position after an edit. -/
def Edit.stop (edit : Edit) : Nat := edit.position + edit.bytes.length

theorem Edit.finish_eq_ok (hstop : edit.stop < twoPow 64) : edit.finish = .ok edit.stop :=
  if_pos hstop

theorem Edit.of_finish_eq_ok {finish : Nat} (hfinish : edit.finish = .ok finish) :
    finish = edit.stop := by
  unfold Edit.finish at hfinish
  dsimp only at hfinish
  split at hfinish
  next =>
    cases hfinish
    rfl
  next => cases hfinish

/-- Two edits of different bytes. -/
def Edit.Apart (a b : Edit) : Prop := a.stop ≤ b.position ∨ b.stop ≤ a.position

/-! ## Applying edits in order -/

/-- What edits make of the code from `cursor` on. -/
structure Spliced (cursor : Nat) (rest : List UInt8) (edits : List Edit) (out : List UInt8) :
    Prop where
  length : out.length = rest.length
  inside : ∀ edit ∈ edits, cursor ≤ edit.position ∧ edit.stop ≤ cursor + rest.length
  edited : ∀ edit ∈ edits, ∀ i < edit.bytes.length,
    out[edit.position - cursor + i]? = edit.bytes[i]?
  kept : ∀ i, (∀ edit ∈ edits, cursor + i < edit.position ∨ edit.stop ≤ cursor + i) →
    out[i]? = rest[i]?
  apart : edits.Pairwise Edit.Apart

theorem spliced_nil (cursor : Nat) (rest : List UInt8) : Spliced cursor rest [] rest :=
  ⟨rfl, by simp, by simp, fun _ _ => rfl, .nil⟩

/-- The order in which edits are listed does not matter. -/
theorem Spliced.perm {others : List Edit} (hspliced : Spliced cursor rest edits out)
    (hperm : edits.Perm others) : Spliced cursor rest others out := by
  obtain ⟨hlength, hinside, hedited, hkept, hapart⟩ := hspliced
  simp only [hperm.mem_iff] at hinside hedited hkept
  exact ⟨hlength, hinside, hedited, hkept, (hperm.pairwise_iff Or.symm).mp hapart⟩

section Cons

variable {cursor : Nat} {rest tail : List UInt8} {edit : Edit} {edits : List Edit}
  (hcursor : cursor ≤ edit.position) (hstop : edit.stop ≤ cursor + rest.length)
include hcursor hstop

variable {i : Nat}

theorem getElem?_before (hi : i < edit.position - cursor) :
    (rest.take (edit.position - cursor) ++ edit.bytes ++ tail)[i]? = rest[i]? := by
  have hlength : i < (rest.take (edit.position - cursor)).length := by
    unfold Edit.stop at hstop
    rw [length_take]
    omega
  rw [append_assoc, getElem?_append_left hlength, getElem?_take, if_pos hi]

theorem getElem?_inside (hi : i < edit.bytes.length) :
    (rest.take (edit.position - cursor) ++ edit.bytes ++ tail)[edit.position - cursor + i]? =
      edit.bytes[i]? := by
  have hlength : (rest.take (edit.position - cursor)).length = edit.position - cursor := by
    unfold Edit.stop at hstop
    rw [length_take]
    omega
  rw [append_assoc, getElem?_append_right (by omega), hlength, Nat.add_sub_cancel_left,
    getElem?_append_left hi]

theorem getElem?_after (i : Nat) :
    (rest.take (edit.position - cursor) ++ edit.bytes ++ tail)[edit.stop - cursor + i]? =
      tail[i]? := by
  have hlength : (rest.take (edit.position - cursor) ++ edit.bytes).length = edit.stop - cursor := by
    unfold Edit.stop at hstop ⊢
    rw [length_append, length_take]
    omega
  rw [getElem?_append_right (by omega), hlength, Nat.add_sub_cancel_left]

/-- One edit, and then the others behind it. -/
theorem Spliced.cons (htail : Spliced edit.stop (rest.drop (edit.stop - cursor)) edits tail) :
    Spliced cursor rest (edit :: edits)
      (rest.take (edit.position - cursor) ++ edit.bytes ++ tail) := by
  have hspan : edit.position ≤ edit.stop := Nat.le_add_right ..
  -- the later edits are applied to what follows the first one, counted from its end
  have hdrop : (rest.drop (edit.stop - cursor)).length = cursor + rest.length - edit.stop := by
    rw [length_drop]
    omega
  refine ⟨?_, ?_, ?_, ?_,
    pairwise_cons.mpr ⟨fun other hother => .inl (htail.inside other hother).1, htail.apart⟩⟩
  · rw [length_append, length_append, length_take, htail.length, hdrop]
    unfold Edit.stop at hstop ⊢
    omega
  · refine forall_mem_cons.mpr ⟨⟨hcursor, hstop⟩, fun other hother => ?_⟩
    obtain ⟨hfirst, hlast⟩ := htail.inside other hother
    omega
  · refine forall_mem_cons.mpr ⟨fun i hi => getElem?_inside hcursor hstop hi,
      fun other hother i hi => ?_⟩
    obtain ⟨hfirst, -⟩ := htail.inside other hother
    have hindex : other.position - cursor + i =
        edit.stop - cursor + (other.position - edit.stop + i) := by omega
    rw [hindex, getElem?_after hcursor hstop]
    exact htail.edited other hother i hi
  · intro i hi
    obtain ⟨hclear, hothers⟩ := forall_mem_cons.mp hi
    rcases hclear with hbefore | hafter
    · exact getElem?_before hcursor hstop (by omega)
    · have hindex : i = edit.stop - cursor + (cursor + i - edit.stop) := by omega
      rw [hindex, getElem?_after hcursor hstop, htail.kept, getElem?_drop]
      intro other hother
      rcases hothers other hother with h | h
      · exact .inl (by omega)
      · exact .inr (by omega)

end Cons

theorem spliced_of_splice (hsplice : splice cursor rest edits = .ok out) :
    Spliced cursor rest edits out := by
  induction edits generalizing cursor rest out with
  | nil =>
    cases hsplice
    exact spliced_nil cursor rest
  | cons edit edits ih =>
    rw [splice, bind_eq_ok] at hsplice
    obtain ⟨finish, hfinish, hrest⟩ := hsplice
    obtain rfl := Edit.of_finish_eq_ok (liftM_eq_ok hfinish)
    split at hrest
    next => cases hrest
    next hplaced =>
      obtain ⟨hcursor, hstop⟩ : cursor ≤ edit.position ∧ edit.stop ≤ cursor + rest.length := by
        omega
      obtain ⟨tail, htail, hout⟩ := of_bind hrest
      cases hout
      exact (ih htail).cons hcursor hstop

/-- Edits in ascending order that keep clear of each other go through. -/
theorem exists_splice (hcursor : ∀ edit ∈ edits, cursor ≤ edit.position)
    (hstop : ∀ edit ∈ edits, edit.stop ≤ cursor + rest.length)
    (hsmall : ∀ edit ∈ edits, edit.stop < twoPow 64)
    (hord : edits.Pairwise fun a b => a.stop ≤ b.position) :
    ∃ out, splice cursor rest edits = .ok out := by
  induction edits generalizing cursor rest with
  | nil => exact ⟨rest, rfl⟩
  | cons edit edits ih =>
    obtain ⟨hfirst, hothers⟩ := forall_mem_cons.mp hcursor
    obtain ⟨hlast, hstops⟩ := forall_mem_cons.mp hstop
    obtain ⟨hfinish, hsmall⟩ := forall_mem_cons.mp hsmall
    obtain ⟨hbehind, hrest⟩ := pairwise_cons.mp hord
    have hspan : edit.position ≤ edit.stop := Nat.le_add_right ..
    have hdrop : edit.stop + (rest.drop (edit.stop - cursor)).length = cursor + rest.length := by
      rw [length_drop]
      omega
    obtain ⟨tail, htail⟩ := @ih (rest.drop (edit.stop - cursor)) edit.stop hbehind
      (fun other hother => hdrop ▸ hstops other hother) hsmall hrest
    refine ⟨rest.take (edit.position - cursor) ++ edit.bytes ++ tail, ?_⟩
    have hplaced : ¬(edit.position < cursor ∨ cursor + rest.length < edit.stop) := by omega
    rw [splice, Edit.finish_eq_ok hfinish]
    change (if edit.position < cursor ∨ cursor + rest.length < edit.stop then _ else _) = _
    rw [if_neg hplaced, htail]
    rfl

/-! ## Filling in jumps -/

/-- A pass that changes no offset has computed all of them. -/
theorem of_settle {fuel iterations : Nat} {known : List (Option Int)}
    (hsettle : settle jumps blocks fuel iterations known = .ok resolution) :
    jumps.mapM (Jump.offset blocks) = .ok resolution.offsets := by
  induction fuel generalizing iterations known with
  | zero =>
    rw [settle, bind_eq_ok] at hsettle
    obtain ⟨offsets, hoffs, hrest⟩ := hsettle
    split at hrest
    next =>
      cases hrest
      exact hoffs
    next => cases hrest
  | succ fuel ih =>
    rw [settle, bind_eq_ok] at hsettle
    obtain ⟨offsets, hoffs, hrest⟩ := hsettle
    split at hrest
    next =>
      cases hrest
      exact hoffs
    next => exact ih hrest

/-- The second pass finds the same offsets as the first. -/
theorem exists_resolve (hoffs : jumps.mapM (Jump.offset blocks) = .ok offsets) :
    ∃ resolution, resolve jumps blocks = .ok resolution ∧ resolution.offsets = offsets ∧
      resolution.iterations ≤ 1 := by
  have hagain : ∀ fuel iterations, settle jumps blocks fuel iterations (offsets.map some) =
      .ok ⟨offsets, iterations⟩ := by
    intro fuel iterations
    rw [settle.eq_def, hoffs]
    exact if_pos rfl
  unfold resolve maxIterations
  rw [settle, hoffs]
  by_cases hknown : offsets.map some = jumps.map fun _ => none
  · exact ⟨⟨offsets, 0⟩, if_pos hknown, rfl, Nat.zero_le 1⟩
  · exact ⟨⟨offsets, 1⟩, (if_neg hknown).trans (hagain _ _), rfl, Nat.le_refl 1⟩

/-- The edits that fill in jumps, each with the offset of its jump. -/
def FilledBy (jumps : List Jump) (blocks : Array (Option Nat)) (filled : List Edit) : Prop :=
  Forall₂ (fun jump edit => ∃ off, jump.offset blocks = .ok off ∧
    jump.edit off = .ok edit) jumps filled

theorem filledBy_of_mapM {filled : List Edit}
    (hoffs : jumps.mapM (Jump.offset blocks) = .ok offsets)
    (hfilled : (jumps.zip offsets).mapM (fun (jump, off) => jump.edit off) = .ok filled) :
    FilledBy jumps blocks filled := by
  induction jumps generalizing offsets filled with
  | nil =>
    cases hfilled
    exact .nil
  | cons jump jumps ih =>
    rw [mapM_cons, bind_eq_ok] at hoffs
    obtain ⟨off, hoff, hrest⟩ := hoffs
    obtain ⟨others, hothers, hall⟩ := of_bind hrest
    cases hall
    rw [zip_cons_cons, mapM_cons, bind_eq_ok] at hfilled
    obtain ⟨edit, hedit, hmore⟩ := hfilled
    obtain ⟨edits, hedits, hlist⟩ := of_bind hmore
    cases hlist
    exact .cons ⟨off, hoff, hedit⟩ (ih hothers hedits)

/-- What a stream of jumps and patches becomes. -/
theorem spliced_of_linearize {patches : List Edit}
    (hresolve : resolve jumps blocks = .ok resolution)
    (hlin : linearize code jumps resolution patches = .ok out) :
    ∃ filled, FilledBy jumps blocks filled ∧ Spliced 0 code (filled ++ patches) out := by
  unfold linearize at hlin
  split at hlin
  next => cases hlin
  next =>
    obtain ⟨filled, hfilled, hsplice⟩ := of_bind hlin
    exact ⟨filled, filledBy_of_mapM (of_settle hresolve) hfilled,
      (spliced_of_splice hsplice).perm (mergeSort_perm ..)⟩

end GraphJit.Code
