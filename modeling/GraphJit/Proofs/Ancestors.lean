import GraphJit.Dominance.Immediate
import Mathlib.Logic.Function.Basic
import Mathlib.Tactic.Common

/-! # Ancestors in a tree of parents

A tree is given by the parent of each of its nodes; the root is its own parent, and
every other parent comes earlier in some ranking. The nearest common ancestor of two
nodes is found by moving the later one up. Moving one node to a parent further up
takes ancestors away from the nodes below it and from no others.
-/

namespace GraphJit.Dominance

open Function

/-- `a` is met on the way up from a node, the node itself included. -/
inductive Above (parent : Nat → Option Nat) (a : Nat) : Nat → Prop where
  | refl : Above parent a a
  | up {b c : Nat} (hparent : parent b = some c) (habove : Above parent a c) : Above parent a b

/-- The ranking decreases on the way up, and the way up does not end before the root. -/
structure Rooted (root : Nat) (rank : Nat → Nat) (parent : Nat → Option Nat) : Prop where
  loop : parent root = some root
  lower : ∀ {b c}, b ≠ root → parent b = some c → rank c < rank b
  closed : ∀ {b c}, parent b = some c → (parent c).isSome

namespace Above

variable {parent : Nat → Option Nat} {root : Nat} {rank : Nat → Nat} {a b c : Nat}

theorem trans (hab : Above parent a b) (hbc : Above parent b c) : Above parent a c := by
  induction hbc with
  | refl => exact hab
  | up hparent _ ih => exact .up hparent ih

theorem parent_of_ne (hab : Above parent a b) (hne : a ≠ b) :
    ∃ c, parent b = some c ∧ Above parent a c := by
  cases hab with
  | refl => exact absurd rfl hne
  | up hparent habove => exact ⟨_, hparent, habove⟩

/-- Two ancestors of one node lie on the same way up. -/
theorem comparable (hac : Above parent a c) (hbc : Above parent b c) :
    Above parent a b ∨ Above parent b a := by
  induction hac with
  | refl => exact .inr hbc
  | @up c d hparent habove ih =>
    by_cases hb : b = c
    · subst hb
      exact .inl (.up hparent habove)
    · obtain ⟨e, he, hbe⟩ := hbc.parent_of_ne hb
      obtain rfl : d = e := Option.mem_unique hparent he
      exact ih hbe

variable (hrooted : Rooted root rank parent)
include hrooted

theorem eq_root (hab : Above parent a root) : a = root := by
  generalize hb : root = b at hab
  rw [← hb]
  induction hab with
  | refl => exact hb.symm
  | up hparent _ ih =>
    subst hb
    exact ih (Option.some.inj (hrooted.loop.symm.trans hparent))

variable (hab : Above parent a b)
include hab

theorem rank_le : rank a ≤ rank b := by
  induction hab with
  | refl => exact Nat.le_refl _
  | @up b c hparent _ ih =>
    by_cases hb : b = root
    · subst hb
      obtain rfl := Option.some.inj (hrooted.loop.symm.trans hparent)
      exact ih
    · exact Nat.le_trans ih (Nat.le_of_lt (hrooted.lower hb hparent))

theorem rank_lt (hne : a ≠ b) : rank a < rank b := by
  obtain ⟨c, hparent, habove⟩ := hab.parent_of_ne hne
  have hb : b ≠ root := by
    rintro rfl
    exact hne (hab.eq_root hrooted)
  exact Nat.lt_of_le_of_lt (habove.rank_le hrooted) (hrooted.lower hb hparent)

theorem antisymm (hba : Above parent b a) : a = b := by
  by_contra hne
  exact absurd (hab.rank_lt hrooted hne) (Nat.not_lt.mpr (hba.rank_le hrooted))

theorem defined (hb : (parent b).isSome) : (parent a).isSome := by
  induction hab with
  | refl => exact hb
  | up hparent _ ih => exact ih (hrooted.closed hparent)

end Above

theorem Rooted.above_root {parent : Nat → Option Nat} {root : Nat} {rank : Nat → Nat}
    (hrooted : Rooted root rank parent) {b : Nat} (hb : (parent b).isSome) :
    Above parent root b := by
  induction hk : rank b using Nat.strongRecOn generalizing b with
  | _ k ih =>
    by_cases hroot : b = root
    · subst hroot
      exact .refl
    · obtain ⟨c, hparent⟩ := Option.isSome_iff_exists.mp hb
      exact .up hparent (ih _ (hk ▸ hrooted.lower hroot hparent) (hrooted.closed hparent) rfl)

/-! ## Moving a node -/

section Update

variable {parent : Nat → Option Nat} {root : Nat} {rank : Nat → Nat} {moved target : Nat}

/-- A node gets a parent above the one it had, if it had one. -/
structure Moves (root : Nat) (rank : Nat → Nat) (parent : Nat → Option Nat) (moved target : Nat) :
    Prop where
  rooted : Rooted root rank parent
  not_root : moved ≠ root
  lower : rank target < rank moved
  defined : (parent target).isSome
  above : ∀ {old}, parent moved = some old → Above parent target old

namespace Moves

variable (hmoves : Moves root rank parent moved target)
include hmoves

theorem not_above_target : ¬Above parent moved target :=
  fun h => absurd (h.rank_le hmoves.rooted) (Nat.not_le.mpr hmoves.lower)

omit hmoves in
theorem defined_of_defined {b : Nat} (hb : (parent b).isSome) :
    (Function.update parent moved (some target) b).isSome := by
  by_cases h : b = moved
  · simp [h]
  · simpa [update_of_ne h] using hb

theorem rooted' : Rooted root rank (Function.update parent moved (some target)) where
  loop := by rw [update_of_ne hmoves.not_root.symm, hmoves.rooted.loop]
  lower {b c} hb hparent := by
    by_cases h : b = moved
    · subst h
      rw [update_self] at hparent
      exact Option.some.inj hparent ▸ hmoves.lower
    · rw [update_of_ne h] at hparent
      exact hmoves.rooted.lower hb hparent
  closed {b c} hparent := by
    by_cases h : b = moved
    · subst h
      rw [update_self] at hparent
      exact defined_of_defined (Option.some.inj hparent ▸ hmoves.defined)
    · rw [update_of_ne h] at hparent
      exact defined_of_defined (hmoves.rooted.closed hparent)

omit hmoves in
/-- A node that is not below the moved one keeps its ancestors. -/
theorem above_iff {a b : Nat} (hb : ¬Above parent moved b) :
    Above (Function.update parent moved (some target)) a b ↔ Above parent a b := by
  constructor
  · intro hab
    induction hab with
    | refl => exact .refl
    | @up b c hparent _ ih =>
      have hne : b ≠ moved := fun h => hb (h ▸ .refl)
      rw [update_of_ne hne] at hparent
      exact .up hparent (ih fun h => hb (.up hparent h))
  · intro hab
    induction hab with
    | refl => exact .refl
    | @up b c hparent _ ih =>
      have hne : b ≠ moved := fun h => hb (h ▸ .refl)
      refine .up ?_ (ih fun h => hb (.up hparent h))
      rw [update_of_ne hne, hparent]

/-- Nothing gets new ancestors, if the moved node had a parent. -/
theorem above_of_above' {a b : Nat} (hdef : (parent moved).isSome)
    (hab : Above (Function.update parent moved (some target)) a b) : Above parent a b := by
  induction hab with
  | refl => exact .refl
  | @up b c hparent _ ih =>
    by_cases h : b = moved
    · subst h
      rw [update_self] at hparent
      obtain ⟨old, hold⟩ := Option.isSome_iff_exists.mp hdef
      obtain rfl := Option.some.inj hparent
      exact .up hold (ih.trans (hmoves.above hold))
    · rw [update_of_ne h] at hparent
      exact .up hparent ih

/-- The way from a node up to the moved one is not touched. -/
theorem above'_of_below {a b : Nat} (hab : Above parent a b) (hmoved : Above parent moved a) :
    Above (Function.update parent moved (some target)) a b := by
  induction hab with
  | refl => exact .refl
  | @up b c hparent habove ih =>
    by_cases h : b = moved
    · subst h
      have hlt := hmoves.rooted.lower hmoves.not_root hparent
      have hle := habove.rank_le hmoves.rooted
      have hge := hmoved.rank_le hmoves.rooted
      omega
    · exact .up (by rw [update_of_ne h, hparent]) ih

/-- The moved node and those below it are now below the target. -/
theorem above'_of_above_target {a b : Nat} (ha : Above parent a target)
    (hmoved : Above parent moved b) : Above (Function.update parent moved (some target)) a b := by
  refine Above.trans ?_ (hmoves.above'_of_below hmoved .refl)
  exact .up (update_self ..) ((above_iff hmoves.not_above_target).mpr ha)

end Moves

end Update

end GraphJit.Dominance
