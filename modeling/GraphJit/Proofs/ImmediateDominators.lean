import GraphJit.Proofs.Ancestors
import GraphJit.Proofs.DepthFirst
import Mathlib.Algebra.Order.BigOperators.Group.Finset

/-! # Immediate dominators

The refinement keeps a tree in which every block has all its dominators above it.
A block only ever moves up, so the sum of the ranks of all parents falls with
every change, and the passes end with a tree in which the parent of each block is
the nearest common ancestor of its predecessors. In such a tree the ancestors of a
block are its dominators.
-/

namespace GraphJit.Dominance

open List Function

open GraphJit.Graph (entry)

/-! ## Ranks -/

variable {b root found : Nat} {idoms : Idoms} {parent : Nat → Option Nat}

theorem getElem?_foldl_ranks {order : List Nat} (hnodup : order.Nodup) (first : Nat)
    (ranks : Array Nat) (hb : b < ranks.size) :
    ((order.zipIdx first).foldl (fun ranks (b, rank) => ranks.setIfInBounds b rank) ranks)[b]? =
      if b ∈ order then some (first + order.idxOf b) else ranks[b]? := by
  induction order generalizing first ranks with
  | nil => simp
  | cons c rest ih =>
    obtain ⟨hc, hrest⟩ := nodup_cons.mp hnodup
    rw [zipIdx_cons, foldl_cons, ih hrest (first + 1) _ (by simpa using hb)]
    by_cases hcb : c = b
    · subst hcb
      simp [hc, hb]
    · rw [Array.getElem?_setIfInBounds_ne hcb]
      simp only [mem_cons, Ne.symm hcb, false_or, idxOf_cons_ne _ hcb]
      split
      next => congr 1; omega
      next => rfl

/-- The ranks that a depth first order gives to its blocks. -/
structure Ranking (graph : Graph) (order : List Nat) (ranks : Array Nat) : Prop where
  mirrored : graph.Mirrored
  depth : graph.DepthFirst order
  inside : ∀ {b}, b ∈ order → b < graph.size
  size : ranks.size = graph.size
  rank_eq : ∀ {b}, b ∈ order → rank ranks b = order.idxOf b

variable {graph : Graph} {order : List Nat} {ranks : Array Nat}

theorem ranking_ranks (hmirror : graph.Mirrored) (hsize : 0 < graph.size)
    (hdepth : graph.DepthFirst order) : Ranking graph order (Dominance.ranks graph.size order) := by
  have hsize' : (Dominance.ranks graph.size order).size = graph.size :=
    (Graph.size_foldl (fun _ _ => Array.size_setIfInBounds) ..).trans Array.size_replicate
  have hinside : ∀ {b}, b ∈ order → b < graph.size := fun hb =>
    (hdepth.mem_iff.mp hb).lt_size hmirror hsize
  refine ⟨hmirror, hdepth, hinside, hsize', ?_⟩
  intro b hb
  rw [rank, Dominance.ranks,
    getElem?_foldl_ranks hdepth.nodup 0 _ (by simpa using hinside hb), if_pos hb]
  simp

namespace Ranking

variable (hrank : Ranking graph order ranks)
include hrank

variable {b : Nat}

theorem injective {a : Nat} (ha : a ∈ order) (hb : b ∈ order) (heq : rank ranks a = rank ranks b) :
    a = b := by
  rw [hrank.rank_eq ha, hrank.rank_eq hb] at heq
  exact (idxOf_inj ha).mp heq

theorem rank_lt_length (hb : b ∈ order) : rank ranks b < order.length :=
  hrank.rank_eq hb ▸ idxOf_lt_length_of_mem hb

theorem rank_lt (hb : b ∈ order) : rank ranks b < graph.size := by
  have hsub : order ⊆ List.range graph.size := fun b hb => mem_range.mpr (hrank.inside hb)
  have hlength := (hrank.depth.nodup.subperm hsub).length_le
  rw [length_range] at hlength
  exact Nat.lt_of_lt_of_le (hrank.rank_lt_length hb) hlength

theorem exists_earlier (hb : b ∈ order) (hne : b ≠ entry) :
    ∃ p ∈ order, graph.Edge p b ∧ rank ranks p < rank ranks b := by
  obtain ⟨p, hp, hedge, hlt⟩ := hrank.depth.exists_earlier hb hne
  refine ⟨p, hp, hedge, ?_⟩
  rwa [hrank.rank_eq hp, hrank.rank_eq hb]

end Ranking

/-! ## The loops, with nothing that bounds them -/

/-- The later of two blocks moves up, again and again, until they meet. -/
inductive Meets (ranks : Array Nat) (idoms : Idoms) : Nat → Nat → Nat → Prop where
  | same (a : Nat) : Meets ranks idoms a a a
  | left {a b up m : Nat} (hlater : rank ranks b < rank ranks a) (hup : idoms.get a = some up)
      (hmeets : Meets ranks idoms up b m) : Meets ranks idoms a b m
  | right {a b up m : Nat} (hlater : rank ranks a < rank ranks b) (hup : idoms.get b = some up)
      (hmeets : Meets ranks idoms a up m) : Meets ranks idoms a b m

/-- Further blocks are met one after the other. -/
inductive MeetsAll (ranks : Array Nat) (idoms : Idoms) : Nat → List Nat → Nat → Prop where
  | nil (a : Nat) : MeetsAll ranks idoms a [] a
  | cons {a p m found : Nat} {rest : List Nat} (hmeets : Meets ranks idoms a p m)
      (hrest : MeetsAll ranks idoms m rest found) : MeetsAll ranks idoms a (p :: rest) found

/-- Those predecessors of a block that have been reached meet in `found`. -/
def MeetIn (graph : Graph) (ranks : Array Nat) (idoms : Idoms) (b found : Nat) : Prop :=
  ∃ first rest, (graph.predecessors b).filter (fun p => (idoms.get p).isSome) = first :: rest ∧
    MeetsAll ranks idoms first (rest.filter (· != first)) found

/-- A pass over some blocks, with the flag that tells whether anything has changed. -/
inductive Pass (graph : Graph) (ranks : Array Nat) (last : Idoms × Bool) :
    Idoms × Bool → List Nat → Prop where
  | done : Pass graph ranks last last []
  | skip {b : Nat} {rest : List Nat} {idoms : Idoms} {changed : Bool}
      (hnone : ∀ p ∈ graph.predecessors b, idoms.get p = none)
      (hrest : Pass graph ranks last (idoms, changed) rest) :
      Pass graph ranks last (idoms, changed) (b :: rest)
  | keep {b found : Nat} {rest : List Nat} {idoms : Idoms} {changed : Bool}
      (hmeet : MeetIn graph ranks idoms b found) (hsame : idoms.get b = some found)
      (hrest : Pass graph ranks last (idoms, changed) rest) :
      Pass graph ranks last (idoms, changed) (b :: rest)
  | move {b found : Nat} {rest : List Nat} {idoms : Idoms} {changed : Bool}
      (hmeet : MeetIn graph ranks idoms b found) (hother : idoms.get b ≠ some found)
      (hrest : Pass graph ranks last (idoms.setIfInBounds b (some found), true) rest) :
      Pass graph ranks last (idoms, changed) (b :: rest)

/-- Passes are made until one changes nothing. -/
inductive Loops (graph : Graph) (ranks : Array Nat) (blocks : List Nat) : Idoms → Idoms → Prop where
  | done {idoms last : Idoms} (hpass : Pass graph ranks (last, false) (idoms, false) blocks) :
      Loops graph ranks blocks idoms last
  | again {idoms next last : Idoms} (hpass : Pass graph ranks (next, true) (idoms, false) blocks)
      (hloops : Loops graph ranks blocks next last) : Loops graph ranks blocks idoms last

/-! ## Nearest common ancestors -/

/-- The ancestors of `m` are the common ancestors of the nodes. -/
def Nearest (parent : Nat → Option Nat) (nodes : List Nat) (m : Nat) : Prop :=
  ∀ x, Above parent x m ↔ ∀ p ∈ nodes, Above parent x p

section Meeting

variable {idoms : Idoms} {root : Nat} (hrooted : Rooted root (rank ranks) idoms.get)
include hrooted

variable {a c d b : Nat} {nodes : List Nat}

/-- A node behind another one is not the root, so it can move up. -/
theorem exists_up (hc : (idoms.get c).isSome) (hd : (idoms.get d).isSome)
    (hlt : rank ranks d < rank ranks c) :
    ∃ up, idoms.get c = some up ∧ (idoms.get up).isSome ∧ rank ranks up < rank ranks c := by
  have hroot : c ≠ root := by
    rintro rfl
    have := (hrooted.above_root hd).rank_le hrooted
    omega
  obtain ⟨up, hparent⟩ := Option.isSome_iff_exists.mp hc
  exact ⟨up, hparent, hrooted.closed hparent, hrooted.lower hroot hparent⟩

/-- The later of two nodes is no common ancestor, so none is lost when it moves up. -/
theorem above_up_iff {up x : Nat} (hlt : rank ranks d < rank ranks c)
    (hparent : idoms.get c = some up) :
    (Above idoms.get x up ∧ Above idoms.get x d) ↔ (Above idoms.get x c ∧ Above idoms.get x d) := by
  refine and_congr_left fun hxd => ⟨.up hparent, fun hxc => ?_⟩
  have hne : x ≠ c := by
    rintro rfl
    have := hxd.rank_le hrooted
    omega
  obtain ⟨other, hother, habove⟩ := hxc.parent_of_ne hne
  exact Option.mem_unique hparent hother ▸ habove

theorem Meets.above_iff {m : Nat} (hmeets : Meets ranks idoms a b m) (x : Nat) :
    Above idoms.get x m ↔ Above idoms.get x a ∧ Above idoms.get x b := by
  induction hmeets with
  | same a => exact and_self_iff.symm
  | left hlater hup _ ih => rw [ih, above_up_iff hrooted hlater hup]
  | right hlater hup _ ih => rw [ih, and_comm, above_up_iff hrooted hlater hup, and_comm]

/-- One more node is taken in by each meeting. -/
theorem MeetsAll.nearest (hmeets : MeetsAll ranks idoms a nodes found) :
    Nearest idoms.get (a :: nodes) found := by
  induction hmeets with
  | nil a => exact fun x => by simp
  | cons hmeets _ ih =>
    intro x
    rw [ih x, forall_mem_cons, hmeets.above_iff hrooted, forall_mem_cons,
      forall_mem_cons, and_assoc]

/-- Predecessors that meet do so in their nearest common ancestor. -/
theorem MeetIn.nearest (hmeet : MeetIn graph ranks idoms b found) :
    Nearest idoms.get ((graph.predecessors b).filter fun p => (idoms.get p).isSome) found := by
  obtain ⟨first, rest, hcons, hmeets⟩ := hmeet
  intro x
  rw [hmeets.nearest hrooted x, hcons, forall_mem_cons, forall_mem_cons]
  refine and_congr_right fun hfirst => ⟨fun h q hq => ?_, fun h q hq => ?_⟩
  · by_cases heq : q = first
    · exact heq ▸ hfirst
    · exact h q (mem_filter.mpr ⟨hq, by simpa using heq⟩)
  · exact h q (mem_of_mem_filter hq)

variable (hinj : ∀ {a b}, (idoms.get a).isSome → (idoms.get b).isSome →
  rank ranks a = rank ranks b → a = b)
include hinj

theorem meets_meet {fuel : Nat} (ha : (idoms.get a).isSome) (hb : (idoms.get b).isSome)
    (hfuel : rank ranks a + rank ranks b < fuel) :
    Meets ranks idoms a b (meet ranks idoms fuel a b) := by
  induction fuel generalizing a b with
  | zero => omega
  | succ fuel ih =>
    rw [meet]
    split
    next hlt =>
      obtain ⟨up, hparent, hdef, hlower⟩ := exists_up hrooted ha hb hlt
      rw [hparent, Option.getD_some]
      exact .left hlt hparent (ih hdef hb (by omega))
    next hge =>
      split
      next hlt =>
        obtain ⟨up, hparent, hdef, hlower⟩ := exists_up hrooted hb ha hlt
        rw [hparent, Option.getD_some]
        exact .right hlt hparent (ih ha hdef (by omega))
      next hge' =>
        obtain rfl := hinj ha hb (by omega)
        exact .same a

variable (hlt : ∀ {b}, (idoms.get b).isSome → rank ranks b < ranks.size)
include hlt

theorem meetsAll_foldl (ha : (idoms.get a).isSome)
    (hnodes : ∀ p ∈ nodes, (idoms.get p).isSome) : MeetsAll ranks idoms a nodes
      (nodes.foldl (fun found p => meet ranks idoms (2 * ranks.size) found p) a) := by
  induction nodes generalizing a with
  | nil => exact .nil a
  | cons p rest ih =>
    obtain ⟨hp, hrest⟩ := forall_mem_cons.mp hnodes
    have hmeets : Meets ranks idoms a p (meet ranks idoms (2 * ranks.size) a p) := by
      have := hlt ha
      have := hlt hp
      exact meets_meet hrooted hinj ha hp (by omega)
    have habove := ((hmeets.above_iff hrooted _).mp .refl).1
    exact .cons hmeets (ih (habove.defined hrooted ha) hrest)

/-- The candidate is where the predecessors reached so far meet. -/
theorem exists_meetIn {p : Nat} (hp : p ∈ graph.predecessors b) (hdef : (idoms.get p).isSome) :
    ∃ found, candidate? ranks idoms (graph.predecessors b) = some found ∧
      MeetIn graph ranks idoms b found := by
  have hmem : p ∈ (graph.predecessors b).filter fun p => (idoms.get p).isSome :=
    mem_filter.mpr ⟨hp, hdef⟩
  have hall : ∀ q ∈ (graph.predecessors b).filter fun p => (idoms.get p).isSome,
      (idoms.get q).isSome := fun q hq => by simpa using (mem_filter.mp hq).2
  unfold candidate?
  split
  next hnil => simp [hnil] at hmem
  next first rest hcons =>
    rw [hcons, forall_mem_cons] at hall
    exact ⟨_, rfl, first, rest, hcons, meetsAll_foldl hrooted hinj hlt hall.1
      fun q hq => hall.2 q (mem_of_mem_filter hq)⟩

end Meeting

/-! ## One step of the refinement -/

/-- What holds in a pass before the block of rank `next` is looked at. -/
structure Refining (graph : Graph) (order : List Nat) (ranks : Array Nat) (next : Nat)
    (parent : Nat → Option Nat) : Prop where
  rooted : Rooted entry (rank ranks) parent
  inside : ∀ {b}, (parent b).isSome → b ∈ order
  reached : ∀ {b}, b ∈ order → rank ranks b < next → (parent b).isSome
  /-- Common ancestors of the predecessors are above the parent. -/
  above : ∀ {b v x}, b ≠ entry → parent b = some v →
    (∀ p, graph.Edge p b → (parent p).isSome → Above parent x p) → Above parent x v
  /-- The parent is above some earlier predecessor, unless it moved after the block was
  last looked at. -/
  below : ∀ {b v}, b ≠ entry → parent b = some v → rank ranks b < next ∨ next ≤ rank ranks v →
    ∃ p, graph.Edge p b ∧ rank ranks p < rank ranks b ∧ (parent p).isSome ∧ Above parent v p
  complete : ∀ {a b}, (parent b).isSome → graph.Dominates a b → Above parent a b

namespace Refining

variable {parent : Nat → Option Nat} {next moved : Nat}

/-- From a block there is a path to any block below it that avoids all earlier blocks. -/
theorem exists_path (href : Refining graph order ranks next parent)
    (hrank : rank ranks moved = next) (hroot : moved ≠ entry) (hbelow : Above parent moved b)
    {visited : List Nat} (hpath : graph.Path moved visited) :
    ∃ more, graph.Path b (more ++ visited) ∧ ∀ w ∈ more, rank ranks moved ≤ rank ranks w := by
  induction hk : rank ranks b using Nat.strongRecOn generalizing b with
  | _ k ih =>
    by_cases hb : moved = b
    · subst hb
      exact ⟨[], hpath, by simp⟩
    · obtain ⟨v, hparent, habove⟩ := hbelow.parent_of_ne hb
      have hb' : b ≠ entry := by
        rintro rfl
        exact hroot (hbelow.eq_root href.rooted)
      have hv : next ≤ rank ranks v := hrank ▸ habove.rank_le href.rooted
      obtain ⟨p, hedge, hlt, -, hp⟩ := href.below hb' hparent (.inr hv)
      obtain ⟨more, hmore, hge⟩ := ih _ (hk ▸ hlt) (habove.trans hp) rfl
      refine ⟨b :: more, hmore.step hedge, ?_⟩
      intro w hw
      rcases mem_cons.mp hw with rfl | hw
      · exact hbelow.rank_le href.rooted
      · exact hge w hw

end Refining

/-- A block is looked at, and `found` is the nearest common ancestor of its predecessors. -/
structure Candidate (graph : Graph) (order : List Nat) (ranks : Array Nat) (next : Nat)
    (parent : Nat → Option Nat) (moved found : Nat) : Prop where
  refining : Refining graph order ranks next parent
  ranking : Ranking graph order ranks
  mem : moved ∈ order
  rank_eq : rank ranks moved = next
  not_entry : moved ≠ entry
  nearest : ∀ x, Above parent x found ↔
    ∀ p, graph.Edge p moved → (parent p).isSome → Above parent x p

namespace Candidate

variable {parent : Nat → Option Nat} {next moved found : Nat}
variable (hfound : Candidate graph order ranks next parent moved found)
include hfound

/-- Taking the nearest common ancestor of the predecessors as parent moves a block up. -/
theorem moves : Moves entry (rank ranks) parent moved found := by
  obtain ⟨p, hp, hedge, hlt⟩ := hfound.ranking.exists_earlier hfound.mem hfound.not_entry
  have hdef := hfound.refining.reached hp (hfound.rank_eq ▸ hlt)
  have habove : Above parent found p := (hfound.nearest found).mp .refl p hedge hdef
  refine ⟨hfound.refining.rooted, hfound.not_entry, ?_, habove.defined hfound.refining.rooted hdef, ?_⟩
  · exact Nat.lt_of_le_of_lt (habove.rank_le hfound.refining.rooted) hlt
  · exact fun hold => hfound.refining.above hfound.not_entry hold ((hfound.nearest found).mp .refl)

variable {b x v : Nat}

theorem above_of_above' {p : Nat} (hp : (parent p).isSome)
    (hx : Above (Function.update parent moved (some found)) x p) : Above parent x p := by
  have hmoves := hfound.moves
  cases hold : (parent moved).isSome with
  | true => exact hmoves.above_of_above' hold hx
  | false =>
    refine (Moves.above_iff fun h => ?_).mp hx
    rw [h.defined hfound.refining.rooted hp] at hold
    simp at hold

omit hfound in
theorem defined_cases {p : Nat} (hp : (Function.update parent moved (some found) p).isSome) :
    p = moved ∨ (parent p).isSome := by
  by_cases h : p = moved
  · exact .inl h
  · rw [update_of_ne h] at hp
    exact .inr hp

section

variable (hb : b ≠ entry) (hv : Function.update parent moved (some found) b = some v)
include hb hv

/-- A common ancestor of the predecessors is still above the parent. -/
theorem above_update
    (hx : ∀ p, graph.Edge p b → (Function.update parent moved (some found) p).isSome →
      Above (Function.update parent moved (some found)) x p) :
    Above (Function.update parent moved (some found)) x v := by
  have hmoves := hfound.moves
  have hold : ∀ p, graph.Edge p b → (parent p).isSome → Above parent x p := fun p hedge hp =>
    hfound.above_of_above' hp (hx p hedge (Moves.defined_of_defined hp))
  by_cases heq : b = moved
  · subst heq
    rw [update_self] at hv
    obtain rfl := Option.some.inj hv
    exact (Moves.above_iff hmoves.not_above_target).mpr ((hfound.nearest x).mpr hold)
  · rw [update_of_ne heq] at hv
    have habove := hfound.refining.above hb hv hold
    by_cases hbelow : Above parent moved v
    · -- both the common ancestor and the parent are above one predecessor
      obtain ⟨p, hedge, -, hp, hvp⟩ :=
        hfound.refining.below hb hv (.inr (hfound.rank_eq ▸ hbelow.rank_le hfound.refining.rooted))
      have hxp := hx p hedge (Moves.defined_of_defined hp)
      rcases hxp.comparable (hmoves.above'_of_below hvp hbelow) with hxv | hvx
      · exact hxv
      · have hv' : (parent v).isSome := hfound.refining.rooted.closed hv
        have hx' := habove.defined hfound.refining.rooted hv'
        have hback := hfound.above_of_above' hx' hvx
        rw [habove.antisymm hfound.refining.rooted hback]
        exact .refl
    · exact (Moves.above_iff hbelow).mpr habove

/-- The parent is still above an earlier predecessor. -/
theorem below_update (hcond : rank ranks b < next + 1 ∨ next + 1 ≤ rank ranks v) :
    ∃ p, graph.Edge p b ∧ rank ranks p < rank ranks b ∧
      (Function.update parent moved (some found) p).isSome ∧
      Above (Function.update parent moved (some found)) v p := by
  have hmoves := hfound.moves
  by_cases heq : b = moved
  · subst heq
    rw [update_self] at hv
    obtain rfl := Option.some.inj hv
    obtain ⟨p, hp, hedge, hlt⟩ := hfound.ranking.exists_earlier hfound.mem hfound.not_entry
    have hdef := hfound.refining.reached hp (hfound.rank_eq ▸ hlt)
    refine ⟨p, hedge, hlt, Moves.defined_of_defined hdef, ?_⟩
    refine (Moves.above_iff fun h => ?_).mpr ((hfound.nearest found).mp .refl p hedge hdef)
    exact absurd (h.rank_le hfound.refining.rooted) (Nat.not_le.mpr hlt)
  · rw [update_of_ne heq] at hv
    have hne : rank ranks b ≠ next := fun h =>
      heq (hfound.ranking.injective (hfound.refining.inside (by simp [hv])) hfound.mem
        (h.trans hfound.rank_eq.symm))
    obtain ⟨p, hedge, hlt, hp, hvp⟩ := hfound.refining.below hb hv (by omega)
    refine ⟨p, hedge, hlt, Moves.defined_of_defined hp, ?_⟩
    by_cases hbelow : Above parent moved p
    · rcases hbelow.comparable hvp with hmv | hvm
      · exact hmoves.above'_of_below hvp hmv
      · -- then the parent comes before the moved block, and so does the predecessor
        by_cases hvm' : v = moved
        · subst hvm'
          exact hmoves.above'_of_below hvp .refl
        · have hrank := hfound.rank_eq
          have := hvm.rank_lt hfound.refining.rooted hvm'
          have := hbelow.rank_le hfound.refining.rooted
          omega
    · exact (Moves.above_iff hbelow).mpr hvp

end

theorem complete_update {a : Nat} (hb : (Function.update parent moved (some found) b).isSome)
    (hdom : graph.Dominates a b) : Above (Function.update parent moved (some found)) a b := by
  have hmoves := hfound.moves
  have hfoundAbove : graph.Dominates a moved → a ≠ moved → Above parent a found := by
    intro hdom hne
    exact (hfound.nearest a).mpr fun p hedge hp => hfound.refining.complete hp (hdom.of_edge hne hedge)
  rcases defined_cases hb with rfl | hb
  · by_cases ha : a = b
    · subst ha
      exact .refl
    · exact hmoves.above'_of_above_target (hfoundAbove hdom ha) .refl
  · have habove := hfound.refining.complete hb hdom
    by_cases hbelow : Above parent moved b
    · rcases hbelow.comparable habove with hma | ham
      · exact hmoves.above'_of_below habove hma
      · by_cases ha : a = moved
        · subst ha
          exact hmoves.above'_of_below habove .refl
        · -- paths to the moved block go on to `b` without meeting `a` again
          have hlt := ham.rank_lt hfound.refining.rooted ha
          refine hmoves.above'_of_above_target (hfoundAbove ?_ ha) hbelow
          intro visited hpath
          obtain ⟨more, hmore, hge⟩ :=
            hfound.refining.exists_path hfound.rank_eq hfound.not_entry hbelow hpath
          rcases mem_append.mp (hdom _ hmore) with hmem | hmem
          · exact absurd (hge a hmem) (Nat.not_le.mpr hlt)
          · exact hmem
    · exact (Moves.above_iff hbelow).mpr habove

theorem update : Refining graph order ranks (next + 1)
    (Function.update parent moved (some found)) where
  rooted := (hfound.moves).rooted'
  inside hb := by
    rcases defined_cases hb with rfl | hb
    · exact hfound.mem
    · exact hfound.refining.inside hb
  reached {b} hb hlt := by
    by_cases heq : b = moved
    · simp [heq]
    · rw [update_of_ne heq]
      have hne : rank ranks b ≠ next := fun h =>
        heq (hfound.ranking.injective hb hfound.mem (h.trans hfound.rank_eq.symm))
      exact hfound.refining.reached hb (by omega)
  above := hfound.above_update
  below := hfound.below_update
  complete := hfound.complete_update

end Candidate

/-! ## Passes -/

/-- Sum of the ranks of all parents; a block without a parent counts like the last. -/
def height (graph : Graph) (ranks : Array Nat) (parent : Nat → Option Nat) : Nat :=
  ∑ b ∈ Finset.range graph.size, (parent b).elim graph.size (rank ranks)

theorem get_setIfInBounds (hb : b < idoms.size) (value : Option Nat) :
    Idoms.get (idoms.setIfInBounds b value) = Function.update idoms.get b value := by
  funext c
  rw [Idoms.get, Array.getElem?_setIfInBounds]
  by_cases hc : b = c
  · subst hc
    simp [hb]
  · simp [hc, update_of_ne (Ne.symm hc), Idoms.get]

theorem height_update_lt (hb : b < graph.size)
    (hlt : rank ranks found < (parent b).elim graph.size (rank ranks)) :
    height graph ranks (Function.update parent b (some found)) < height graph ranks parent := by
  refine Finset.sum_lt_sum (fun c _ => ?_) ⟨b, Finset.mem_range.mpr hb, by simpa using hlt⟩
  by_cases hc : c = b
  · subst hc
    simpa using Nat.le_of_lt hlt
  · rw [update_of_ne hc]

/-- The parent of a block is the nearest common ancestor of its predecessors. -/
def Settled (graph : Graph) (parent : Nat → Option Nat) (b : Nat) : Prop :=
  ∃ v, parent b = some v ∧ ∀ p, graph.Edge p b → (parent p).isSome → Above parent v p

/-- What becomes of the tree: it stays as it is with some blocks settled, or it gets less high. -/
def Progresses (graph : Graph) (ranks : Array Nat) (blocks : List Nat) (before after : Idoms × Bool) :
    Prop :=
  (after = before ∧ ∀ b ∈ blocks, Settled graph before.1.get b) ∨
    (after.2 = true ∧ height graph ranks after.1.get < height graph ranks before.1.get)

theorem Progresses.trans {first second : List Nat} {before mid after : Idoms × Bool}
    (hfirst : Progresses graph ranks first before mid)
    (hsecond : Progresses graph ranks second mid after) :
    Progresses graph ranks (first ++ second) before after := by
  rcases hfirst with ⟨rfl, hset⟩ | ⟨hchanged, hlt⟩ <;>
    rcases hsecond with ⟨rfl, hset'⟩ | ⟨hchanged', hlt'⟩
  · exact .inl ⟨rfl, fun b hb => (mem_append.mp hb).elim (hset b) (hset' b)⟩
  · exact .inr ⟨hchanged', hlt'⟩
  · exact .inr ⟨hchanged, hlt⟩
  · exact .inr ⟨hchanged', Nat.lt_trans hlt' hlt⟩

namespace Refining

variable {idoms : Idoms} {next b : Nat}

section

variable (href : Refining graph order ranks next idoms.get) (hranking : Ranking graph order ranks)
include href hranking

/-- The candidate of the block that is looked at. -/
theorem exists_candidate (hb : b ∈ order) (hrank : rank ranks b = next) (hne : b ≠ entry) :
    ∃ found, candidate? ranks idoms (graph.predecessors b) = some found ∧
      MeetIn graph ranks idoms b found ∧ Candidate graph order ranks next idoms.get b found := by
  obtain ⟨p, hp, hedge, hlt⟩ := hranking.exists_earlier hb hne
  have hdef := href.reached hp (hrank ▸ hlt)
  obtain ⟨found, hfound, hmeet⟩ := exists_meetIn href.rooted
    (fun ha hb => hranking.injective (href.inside ha) (href.inside hb))
    (fun hb => hranking.size.symm ▸ hranking.rank_lt (href.inside hb))
    (hranking.mirrored.mem_iff.mp hedge) hdef
  refine ⟨found, hfound, hmeet, href, hranking, hb, hrank, hne, fun x => ?_⟩
  rw [hmeet.nearest href.rooted x]
  simp only [mem_filter, ← hranking.mirrored.mem_iff, Graph.Edge]
  exact ⟨fun h p he hp => h p ⟨he, hp⟩, fun h p hp => h p hp.1 hp.2⟩

theorem refineBlock (hsize : idoms.size = graph.size) (hb : b ∈ order) (hrank : rank ranks b = next)
    (hne : b ≠ entry) (changed : Bool) :
    Refining graph order ranks (next + 1) (refineBlock graph ranks (idoms, changed) b).1.get ∧
      (Dominance.refineBlock graph ranks (idoms, changed) b).1.size = graph.size ∧
      Progresses graph ranks [b] (idoms, changed)
        (Dominance.refineBlock graph ranks (idoms, changed) b) ∧
      ∀ last rest, Pass graph ranks last (Dominance.refineBlock graph ranks (idoms, changed) b) rest →
        Pass graph ranks last (idoms, changed) (b :: rest) := by
  obtain ⟨found, hfound, hmeet, hcand⟩ := href.exists_candidate hranking hb hrank hne
  simp only [Dominance.refineBlock, hfound]
  split
  next hsame =>
    have hkept := hcand.update
    rw [← hsame, update_eq_self] at hkept
    refine ⟨hkept, hsize, .inl ⟨rfl, ?_⟩, fun _ _ => .keep hmeet hsame⟩
    intro c hc
    obtain rfl := mem_singleton.mp hc
    exact ⟨found, hsame, (hcand.nearest found).mp .refl⟩
  next hother =>
    have hlt := hranking.inside hb
    have hupdate := get_setIfInBounds (hsize ▸ hlt) (some found)
    refine ⟨hupdate ▸ hcand.update, by simpa using hsize, .inr ⟨rfl, ?_⟩,
      fun _ _ => .move hmeet hother⟩
    rw [hupdate]
    refine height_update_lt hlt ?_
    cases hold : idoms.get b with
    | none =>
      have hdef := href.inside (hcand.moves.defined)
      exact hranking.rank_lt hdef
    | some old =>
      refine (hcand.moves.above hold).rank_lt href.rooted ?_
      rintro rfl
      exact hother hold

end

variable {rest : List Nat}

theorem foldl_refineBlock (hranking : Ranking graph order ranks) (before : List Nat)
    (horder : order = before ++ rest) (hbefore : before ≠ [])
    (href : Refining graph order ranks before.length idoms.get) (hsize : idoms.size = graph.size)
    (changed : Bool) : Refining graph order ranks order.length
        (rest.foldl (Dominance.refineBlock graph ranks) (idoms, changed)).1.get ∧
      (rest.foldl (Dominance.refineBlock graph ranks) (idoms, changed)).1.size = graph.size ∧
      Progresses graph ranks rest (idoms, changed)
        (rest.foldl (Dominance.refineBlock graph ranks) (idoms, changed)) ∧
      Pass graph ranks (rest.foldl (Dominance.refineBlock graph ranks) (idoms, changed))
        (idoms, changed) rest := by
  induction rest generalizing before idoms changed with
  | nil =>
    rw [append_nil] at horder
    exact ⟨horder ▸ href, hsize, .inl ⟨rfl, by simp⟩, .done⟩
  | cons b rest ih =>
    have hb : b ∈ order := by simp [horder]
    have hnodup := horder ▸ hranking.depth.nodup
    have hnew : b ∉ before := fun h =>
      disjoint_of_nodup_append hnodup h mem_cons_self
    have hrank : rank ranks b = before.length := by
      rw [hranking.rank_eq hb, horder, idxOf_append_of_notMem hnew]
      simp
    have hne : b ≠ entry := by
      rintro rfl
      have hhead := hranking.depth.head
      rw [horder, head?_append_of_ne_nil _ hbefore] at hhead
      exact hnew (mem_of_head? hhead)
    obtain ⟨hstep, hsize', hprog, hpass⟩ :=
      href.refineBlock hranking hsize hb hrank hne changed
    obtain ⟨hlast, hsize'', hprog', hpass'⟩ := ih (before ++ [b]) (by simp [horder])
      (by simp) (by simpa using hstep) hsize' _
    exact ⟨hlast, hsize'', hprog.trans hprog', hpass _ _ hpass'⟩

theorem restart (href : Refining graph order ranks order.length idoms.get)
    (hranking : Ranking graph order ranks) : Refining graph order ranks 1 idoms.get := by
  refine { href with
    reached := fun hb _ => href.reached hb (hranking.rank_lt_length hb)
    below := ?_ }
  intro b v hb hv _
  exact href.below hb hv
    (.inl (hranking.rank_lt_length (href.inside (Option.isSome_of_eq_some hv))))

/-- The passes end with a settled tree, before their bound is reached. -/
theorem refine (hranking : Ranking graph order ranks) (horder : order = entry :: rest) {fuel : Nat}
    (href : Refining graph order ranks 1 idoms.get) (hsize : idoms.size = graph.size)
    (hfuel : height graph ranks idoms.get < fuel) :
    Refining graph order ranks order.length (Dominance.refine graph ranks rest fuel idoms).get ∧
      (Dominance.refine graph ranks rest fuel idoms).size = graph.size ∧
      (∀ b ∈ rest, Settled graph (Dominance.refine graph ranks rest fuel idoms).get b) ∧
      Loops graph ranks rest idoms (Dominance.refine graph ranks rest fuel idoms) := by
  induction fuel generalizing idoms with
  | zero => omega
  | succ fuel ih =>
    obtain ⟨hnext, hsize', hprog, hpass⟩ := foldl_refineBlock hranking [entry]
      horder (by simp) href hsize false
    rw [Dominance.refine]
    generalize rest.foldl (Dominance.refineBlock graph ranks) (idoms, false) = after at *
    rcases hprog with ⟨rfl, hset⟩ | ⟨hchanged, hlt⟩
    · exact ⟨hnext, hsize, hset, .done hpass⟩
    · obtain ⟨after, changed⟩ := after
      obtain rfl : changed = true := hchanged
      dsimp only at hlt
      obtain ⟨hlast, hsize'', hset, hloops⟩ :=
        @ih after (hnext.restart hranking) hsize' (by omega)
      exact ⟨hlast, hsize'', hset, .again hpass hloops⟩

end Refining

/-! ## The result -/

/-- Parents that show the dominators of every reachable block. -/
structure Immediate (graph : Graph) (parent : Nat → Option Nat) : Prop where
  rooted : ∃ rank, Rooted entry rank parent ∧ ∀ {b}, (parent b).isSome → rank b < graph.size
  defined_iff : ∀ {b}, (parent b).isSome ↔ graph.Reachable b
  above_predecessor : ∀ {p b v}, b ≠ entry → parent b = some v → graph.Reachable p →
    graph.Edge p b → Above parent v p
  above_of_dominates : ∀ {a b}, graph.Reachable b → graph.Dominates a b → Above parent a b

/-- The ancestors of a reachable block are its dominators. -/
theorem Immediate.above_iff (himm : Immediate graph parent) {a : Nat} (hb : graph.Reachable b) :
    Above parent a b ↔ graph.Dominates a b := by
  refine ⟨?_, himm.above_of_dominates hb⟩
  obtain ⟨rank, hrooted, -⟩ := himm.rooted
  intro habove visited hpath
  clear hb
  induction hpath with
  | entry => exact mem_singleton.mpr (habove.eq_root hrooted)
  | @step p b visited hpath hedge ih =>
    by_cases ha : a = b
    · exact ha ▸ mem_cons_self
    · by_cases hb : b = entry
      · subst hb
        exact absurd (habove.eq_root hrooted) ha
      · obtain ⟨v, hparent, hav⟩ := habove.parent_of_ne ha
        have hvp := himm.above_predecessor hb hparent ⟨_, hpath⟩ hedge
        exact .tail _ (ih (hav.trans hvp))

theorem refining_start (hranking : Ranking graph order ranks)
    (hidoms : ∀ b, idoms.get b = if b = entry then some entry else none) :
    Refining graph order ranks 1 idoms.get := by
  have hzero : rank ranks entry = 0 := by
    rw [hranking.rank_eq hranking.depth.entry_mem]
    obtain ⟨rest, hrest⟩ := head?_eq_some_iff.mp hranking.depth.head
    rw [hrest, idxOf_cons_self]
  have honly : ∀ {b}, (idoms.get b).isSome → b = entry := by
    intro b hb
    by_contra hne
    simp [hidoms, hne] at hb
  have hnone : ∀ {b v}, b ≠ entry → idoms.get b ≠ some v := by
    intro b v hne
    simp [hidoms, hne]
  refine ⟨⟨by simp [hidoms], fun hb hv => absurd hv (hnone hb), ?_⟩, ?_, ?_, ?_, ?_, ?_⟩
  · intro b c hparent
    obtain rfl : b = entry := honly (Option.isSome_of_eq_some hparent)
    obtain rfl : entry = c := by simpa [hidoms] using hparent
    exact Option.isSome_of_eq_some hparent
  · exact fun hb => honly hb ▸ hranking.depth.entry_mem
  · intro b hb hlt
    have hb' := hranking.injective hb hranking.depth.entry_mem (by omega)
    simp [hidoms, hb']
  · exact fun hb hv => absurd hv (hnone hb)
  · exact fun hb hv => absurd hv (hnone hb)
  · intro a b hb hdom
    obtain rfl := honly hb
    rw [mem_singleton.mp (hdom _ .entry)]
    exact .refl

/-- What the loops compute for a graph: all blocks but the entry start without a parent. -/
def Computes (graph : Graph) (result : Idoms) : Prop :=
  ∃ rest, graph.reversePostorder = .ok (entry :: rest) ∧
    Loops graph (Dominance.ranks graph.size (entry :: rest)) rest
      ((Array.replicate graph.size none).setIfInBounds entry (some entry)) result

/-- Immediate dominators are found, within the bound on the number of passes. -/
theorem exists_idoms (hmirror : graph.Mirrored) (hsize : 0 < graph.size) :
    ∃ result, Dominance.idoms graph = .ok result ∧ result.size = graph.size ∧
      Immediate graph result.get ∧ Computes graph result := by
  obtain ⟨order, horder, hdepth⟩ := Graph.exists_reversePostorder hsize
    fun hedge => hmirror.lt_size_of_successor hedge
  obtain ⟨rest, rfl⟩ := head?_eq_some_iff.mp hdepth.head
  have hranking := ranking_ranks hmirror hsize hdepth
  let first : Idoms := (Array.replicate graph.size none).setIfInBounds entry (some entry)
  have hfirst : ∀ b, first.get b = if b = entry then some entry else none := by
    intro b
    have hentry : entry < (Array.replicate graph.size (none : Option Nat)).size := by
      rw [Array.size_replicate]
      exact hsize
    rw [get_setIfInBounds hentry]
    by_cases hb : b = entry
    · simp [hb]
    · rw [update_of_ne hb, if_neg hb, Idoms.get, Array.getElem?_replicate]
      split <;> rfl
  have hheight : height graph (ranks graph.size (entry :: rest)) first.get <
      graph.size * graph.size + 2 := by
    refine Nat.lt_of_le_of_lt ?_ (Nat.lt_add_of_pos_right (by decide))
    refine (Finset.sum_le_card_nsmul _ _ graph.size fun b _ => ?_).trans (by simp)
    rw [hfirst]
    split
    next =>
      exact Nat.le_of_lt (hranking.rank_lt hdepth.entry_mem)
    next => exact Nat.le_refl _
  obtain ⟨hlast, hsize', hset, hloops⟩ := (refining_start hranking hfirst).refine hranking rfl
    (by simp [first]) hheight
  refine ⟨_, ?_, hsize', ⟨⟨_, hlast.rooted, ?_⟩, ?_, ?_, ?_⟩, rest, horder, hloops⟩
  · simp only [Dominance.idoms, horder, bind, Except.bind]
    rfl
  · exact fun hb => hranking.rank_lt (hlast.inside hb)
  · intro b
    rw [← hdepth.mem_iff]
    exact ⟨hlast.inside, fun hb => hlast.reached hb (hranking.rank_lt_length hb)⟩
  · intro p b v hb hparent hp hedge
    have hmem : b ∈ rest := (mem_cons.mp (hlast.inside (by simp [hparent]))).resolve_left hb
    obtain ⟨other, hother, habove⟩ := hset b hmem
    obtain rfl := Option.mem_unique hparent hother
    have hp' := hdepth.mem_iff.mpr hp
    exact habove p hedge (hlast.reached hp' (hranking.rank_lt_length hp'))
  · intro a b hb hdom
    have hb' := hdepth.mem_iff.mpr hb
    exact hlast.complete (hlast.reached hb' (hranking.rank_lt_length hb')) hdom

end GraphJit.Dominance
