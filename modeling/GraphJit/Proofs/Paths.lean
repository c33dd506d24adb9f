import GraphJit.Proofs.Links
import Mathlib.Tactic.Common

/-! # Paths and dominance

Paths begin at the entry and follow successor edges. A block dominates another if
it lies on every path to it.
-/

namespace GraphJit.Graph

open List

/-- There is an edge from `a` to `b`. -/
def Edge (graph : Graph) (a b : Nat) : Prop := b ∈ graph.successors a

/-- The blocks on a path from the entry to `b`, the last first. -/
inductive Path (graph : Graph) : Nat → List Nat → Prop where
  | entry : Path graph entry [entry]
  | step {a b : Nat} {visited : List Nat} (hpath : Path graph a visited) (hedge : graph.Edge a b) :
      Path graph b (b :: visited)

/-- There is a path from the entry. -/
def Reachable (graph : Graph) (b : Nat) : Prop := ∃ visited, graph.Path b visited

/-- Every path from the entry to `b` passes through `a`. -/
def Dominates (graph : Graph) (a b : Nat) : Prop := ∀ visited, graph.Path b visited → a ∈ visited

variable {graph : Graph}

namespace Path

variable {b : Nat} {visited : List Nat}

theorem mem_self (hpath : graph.Path b visited) : b ∈ visited := by
  cases hpath <;> exact mem_cons_self

theorem entry_mem (hpath : graph.Path b visited) : Graph.entry ∈ visited := by
  induction hpath with
  | entry => exact mem_cons_self
  | step _ _ ih => exact .tail _ ih

/-- A path can be cut where it first passes a block. -/
theorem first {a : Nat} (hpath : graph.Path b visited) (ha : a ∈ visited) :
    ∃ earlier, graph.Path a (a :: earlier) ∧ a ∉ earlier := by
  induction hpath with
  | entry =>
    obtain rfl := mem_singleton.mp ha
    exact ⟨[], .entry, not_mem_nil⟩
  | @step c b visited hpath hedge ih =>
    by_cases hmem : a ∈ visited
    · exact ih hmem
    · obtain rfl := (mem_cons.mp ha).resolve_right hmem
      exact ⟨visited, .step hpath hedge, hmem⟩

theorem mono {other : Graph} (hedges : ∀ {a b}, graph.Edge a b → other.Edge a b)
    (hpath : graph.Path b visited) : other.Path b visited := by
  induction hpath with
  | entry => exact .entry
  | step _ hedge ih => exact .step ih (hedges hedge)

end Path

theorem path_congr {other : Graph} (hedges : ∀ a b, other.Edge a b ↔ graph.Edge a b) :
    other.Path = graph.Path := by
  funext b visited
  exact propext ⟨.mono fun h => (hedges _ _).mp h, .mono fun h => (hedges _ _).mpr h⟩

namespace Reachable

theorem entry : graph.Reachable entry := ⟨_, .entry⟩

variable {b a : Nat}

theorem step (hreach : graph.Reachable a) (hedge : graph.Edge a b) : graph.Reachable b := by
  obtain ⟨visited, hpath⟩ := hreach
  exact ⟨_, hpath.step hedge⟩

/-- What holds of the entry and is passed on along edges holds of every reachable block. -/
theorem induct {motive : Nat → Prop} (hentry : motive Graph.entry)
    (hstep : ∀ {a b}, graph.Reachable a → motive a → graph.Edge a b → motive b)
    (hreach : graph.Reachable b) : motive b := by
  obtain ⟨visited, hpath⟩ := hreach
  induction hpath with
  | entry => exact hentry
  | step hpath hedge ih => exact hstep ⟨_, hpath⟩ ih hedge

theorem of_mem_path {visited : List Nat} (hpath : graph.Path b visited) (ha : a ∈ visited) :
    graph.Reachable a := by
  obtain ⟨earlier, hfirst, -⟩ := hpath.first ha
  exact ⟨_, hfirst⟩

/-- A block other than the entry is reached from another block. -/
theorem exists_predecessor (hreach : graph.Reachable b) (hne : b ≠ Graph.entry) :
    ∃ p, p ≠ b ∧ graph.Reachable p ∧ graph.Edge p b := by
  obtain ⟨visited, hpath⟩ := hreach
  induction hpath with
  | entry => exact absurd rfl hne
  | @step a b visited hpath hedge ih =>
    by_cases hab : a = b
    · subst hab
      exact ih hne
    · exact ⟨a, hab, ⟨_, hpath⟩, hedge⟩

theorem lt_size (hmirror : graph.Mirrored) (hsize : 0 < graph.size) (hreach : graph.Reachable b) :
    b < graph.size := by
  obtain ⟨visited, hpath⟩ := hreach
  cases hpath with
  | entry => exact hsize
  | step _ hedge => exact hmirror.lt_size_of_successor hedge

end Reachable

namespace Dominates

theorem entry (b : Nat) : graph.Dominates entry b := fun _ hpath => hpath.entry_mem

variable {b a c : Nat}

/-- A dominator of a block other than the block itself dominates its predecessors. -/
theorem of_edge (hdom : graph.Dominates a c) (hne : a ≠ c) (hedge : graph.Edge b c) :
    graph.Dominates a b := by
  intro visited hpath
  rcases mem_cons.mp (hdom _ (hpath.step hedge)) with heq | hmem
  · exact absurd heq hne
  · exact hmem

/-- The only predecessor of a block dominates it. -/
theorem of_unique {p : Nat} (hne : b ≠ Graph.entry) (honly : ∀ q, graph.Edge q b → q = p) :
    graph.Dominates p b := by
  intro visited hpath
  cases hpath with
  | entry => exact absurd rfl hne
  | step hpath hedge => exact honly _ hedge ▸ .tail _ hpath.mem_self

theorem reachable (hdom : graph.Dominates a b) (hreach : graph.Reachable b) :
    graph.Reachable a := by
  obtain ⟨visited, hpath⟩ := hreach
  exact .of_mem_path hpath (hdom visited hpath)

end Dominates

end GraphJit.Graph
