import GraphJit.Proofs.Analysis
import GraphJit.Proofs.Results

/-! # The tree of an analysed graph

The walk around the tree enters and leaves every reachable block once, and the times of
a block enclose those of the blocks below it and of no others. The preorder lists the
blocks in the order in which they are entered. So the tree answers which blocks dominate
which.
-/

namespace GraphJit.DominatorTree

open Dominance GraphJit.Graph List

variable {graph : Graph} {a b c start last : Nat} {rest work : List Nat}

section

variable (hdoms : Analyzed graph)
include hdoms

theorem mem_children_iff :
    c ∈ (ofGraph graph).children b ↔ c ≠ entry ∧ parentOf graph c = some b := by
  have hlist : (ofGraph graph).children b =
      if b < graph.size then childrenOf graph.blocks.toList b else [] := by
    by_cases hb : b < graph.size <;> simp [children, ofGraph, hb]
  rw [hlist]
  constructor
  · intro hc
    split at hc
    next =>
      simp only [childrenOf, mem_map, mem_filter, mem_blocks_iff] at hc
      obtain ⟨block, ⟨⟨pos, hblock⟩, hparent⟩, rfl⟩ := hc
      have hindex : block.index = pos := hdoms.indexed hblock
      subst hindex
      have hne : block.index ≠ entry := by
        intro h
        rw [hdoms.entry_parent (h ▸ hblock)] at hparent
        simp at hparent
      exact ⟨hne, by simpa [parentOf, hne, hblock] using hparent⟩
    next => cases hc
  · rintro ⟨hne, hparent⟩
    obtain ⟨rank, hrooted, -⟩ := hdoms.immediate.rooted
    have hb := hdoms.immediate.defined_iff.mp (hrooted.closed hparent)
    rw [if_pos (hb.lt_size hdoms.mirrored hdoms.nonempty)]
    rw [parentOf, if_neg hne] at hparent
    obtain ⟨block, hblock, hidom⟩ := Option.bind_eq_some_iff.mp hparent
    simp only [childrenOf, mem_map, mem_filter, mem_blocks_iff]
    exact ⟨block, ⟨⟨c, hblock⟩, by simp [hidom]⟩, hdoms.indexed hblock⟩

theorem nodup_children (b : Nat) : ((ofGraph graph).children b).Nodup := by
  have hsub : (childrenOf graph.blocks.toList b).Sublist (graph.blocks.toList.map (·.index)) :=
    filter_sublist.map _
  have hnodup := hsub.nodup (hdoms.indexed.indices ▸ nodup_range)
  by_cases hb : b < graph.size <;> simp [children, ofGraph, hb, hnodup]

/-- A block is above itself and what its children are above. -/
theorem above_iff_children : Above (parentOf graph) b c ↔
      c = b ∨ ∃ child ∈ (ofGraph graph).children b, Above (parentOf graph) child c := by
  obtain ⟨rank, hrooted, -⟩ := hdoms.immediate.rooted
  constructor
  · intro habove
    induction habove with
    | refl => exact .inl rfl
    | @up c d hparent habove ih =>
      by_cases hc : c = entry
      · subst hc
        obtain rfl := Option.some.inj (hrooted.loop.symm.trans hparent)
        exact ih
      · rcases ih with rfl | ⟨child, hchild, hbelow⟩
        · exact .inr ⟨c, (mem_children_iff hdoms).mpr ⟨hc, hparent⟩, .refl⟩
        · exact .inr ⟨child, hchild, .up hparent hbelow⟩
  · rintro (rfl | ⟨child, hchild, hbelow⟩)
    · exact .refl
    · obtain ⟨-, hparent⟩ := (mem_children_iff hdoms).mp hchild
      exact (Above.up hparent .refl).trans hbelow

end

/-! ## Blocks that are apart -/

/-- Neither of two blocks is above the other. -/
def Apart (parent : Nat → Option Nat) (a b : Nat) : Prop := ¬Above parent a b ∧ ¬Above parent b a

/-- What is below blocks that are apart is apart. -/
theorem Apart.below {parent : Nat → Option Nat} {first second : Nat} (hapart : Apart parent a b)
    (hfirst : Above parent a first) (hsecond : Above parent b second) :
    Apart parent first second := by
  refine ⟨fun h => ?_, fun h => ?_⟩
  · exact ((hfirst.trans h).comparable hsecond).elim hapart.1 hapart.2
  · exact (hfirst.comparable (hsecond.trans h)).elim hapart.1 hapart.2

theorem apart_children (hdoms : Analyzed graph) (b : Nat) :
    ((ofGraph graph).children b).Pairwise (Apart (parentOf graph)) := by
  obtain ⟨rank, hrooted, -⟩ := hdoms.immediate.rooted
  -- a block above another child of its parent would be above the parent
  have hup : ∀ {c d}, c ∈ (ofGraph graph).children b → d ∈ (ofGraph graph).children b → c ≠ d →
      ¬Above (parentOf graph) c d := by
    intro c d hc hd hne habove
    obtain ⟨hroot, hparent⟩ := (mem_children_iff hdoms).mp hc
    obtain ⟨v, hv, hcv⟩ := habove.parent_of_ne hne
    obtain rfl := Option.mem_unique ((mem_children_iff hdoms).mp hd).2 hv
    exact absurd (hcv.rank_le hrooted) (Nat.not_le.mpr (hrooted.lower hroot hparent))
  exact (nodup_children hdoms b).imp_of_mem fun hc hd hne => ⟨hup hc hd hne, hup hd hc hne.symm⟩

/-! ## The walk around the tree -/

/-- When a block is entered and left. -/
structure Span where
  block : Nat
  enter : Nat
  exit : Nat

/-- The walk around the trees below some blocks from one time to another, with nothing that
bounds it. -/
inductive Tours (children : Nat → List Nat) : List Nat → Nat → Nat → List Span → Prop where
  | done {time : Nat} : Tours children [] time time []
  | next {b start mid last : Nat} {rest : List Nat} {inner outer : List Span}
      (hbelow : Tours children (children b) (start + 1) mid inner)
      (hrest : Tours children rest (mid + 1) last outer) :
      Tours children (b :: rest) start last (⟨b, start, mid⟩ :: inner ++ outer)

theorem exists_tours (hdoms : Analyzed graph) (hwork : ∀ w ∈ work, graph.Reachable w)
    (start : Nat) : ∃ last spans, Tours (ofGraph graph).children work start last spans := by
  obtain ⟨rank, hrooted, hlast⟩ := hdoms.immediate.rooted
  -- the ranks rise on the way down, and stay below the number of blocks
  have hdeep : ∀ (depth : Nat) (work : List Nat) (start : Nat),
      (∀ w ∈ work, graph.Reachable w ∧ graph.size ≤ rank w + depth) →
      ∃ last spans, Tours (ofGraph graph).children work start last spans := by
    intro depth
    induction depth with
    | zero =>
      intro work start hwork
      cases work with
      | nil => exact ⟨_, _, .done⟩
      | cons b rest =>
        obtain ⟨hb, hrank⟩ := hwork b mem_cons_self
        have := hlast (hdoms.immediate.defined_iff.mpr hb)
        omega
    | succ depth ih =>
      intro work
      induction work with
      | nil => exact fun start _ => ⟨_, _, .done⟩
      | cons b rest ihRest =>
        intro start hwork
        obtain ⟨mid, inner, hinner⟩ := ih ((ofGraph graph).children b) (start + 1) fun c hc => by
          obtain ⟨hne, hparent⟩ := (mem_children_iff hdoms).mp hc
          have hrank := (hwork b mem_cons_self).2
          have hlower := hrooted.lower hne hparent
          exact ⟨hdoms.immediate.defined_iff.mp (Option.isSome_of_eq_some hparent), by omega⟩
        obtain ⟨last, outer, houter⟩ := ihRest (mid + 1) fun w hw => hwork w (.tail _ hw)
        exact ⟨last, _, .next hinner houter⟩
  exact hdeep graph.size work start fun w hw => ⟨hwork w hw, Nat.le_add_left ..⟩

/-- The way down from a list of blocks until nothing is left, with nothing that bounds it. -/
inductive Descends (children : Nat → List Nat) : List Nat → List Nat → Prop where
  | done : Descends children [] []
  | next {b : Nat} {rest order : List Nat} (hrest : Descends children (children b ++ rest) order) :
      Descends children (b :: rest) (b :: order)

namespace Tours

variable {children : Nat → List Nat} {spans : List Span}

section

variable (htours : Tours children work start last spans)
include htours

theorem times : last = start + 2 * spans.length ∧
    ∀ span ∈ spans, start ≤ span.enter ∧ span.enter < span.exit ∧ span.exit < last := by
  induction htours with
  | done => simp
  | next hbelow hrest ihBelow ihRest =>
    obtain ⟨hmid, hinner⟩ := ihBelow
    obtain ⟨hlast, houter⟩ := ihRest
    refine ⟨by simp only [length_append, length_cons]; omega, ?_⟩
    simp only [forall_mem_append, forall_mem_cons]
    refine ⟨⟨⟨Nat.le_refl _, by omega, by omega⟩, fun span hspan => ?_⟩, fun span hspan => ?_⟩
    · have := hinner span hspan
      omega
    · have := houter span hspan
      omega

/-- The way down meets the blocks in the order in which the walk enters them. -/
theorem descends {more order : List Nat} (hmore : Descends children more order) :
    Descends children (work ++ more) (spans.map (·.block) ++ order) := by
  induction htours generalizing more order with
  | done => exact hmore
  | next hbelow hrest ihBelow ihRest =>
    rw [map_append, append_assoc]
    exact .next (ihBelow (ihRest hmore))

end

variable (hdoms : Analyzed graph) (htours : Tours (ofGraph graph).children work start last spans)
include hdoms htours

/-- The walk comes to all blocks below the listed ones. -/
theorem mem_iff : (∃ span ∈ spans, span.block = c) ↔ ∃ w ∈ work, Above (parentOf graph) w c := by
  induction htours with
  | done => simp
  | @next b _ _ _ _ _ _ _ _ ihBelow ihRest =>
    have hhere := above_iff_children hdoms (b := b) (c := c)
    simp only [mem_append, mem_cons, or_and_right, exists_or, exists_eq_left, ihBelow, ihRest,
      hhere, eq_comm (a := c)]

/-- Blocks are entered behind their parents, unless they are listed. -/
theorem parent_first : ∀ span ∈ spans, span.block ∈ work ∨ ∃ v,
    parentOf graph span.block = some v ∧ [v, span.block].Sublist (spans.map (·.block)) := by
  induction htours with
  | done => simp
  | @next b _ _ _ rest inner outer hbelow hrest ihBelow ihRest =>
    rw [forall_mem_append, forall_mem_cons, map_append, map_cons]
    refine ⟨⟨.inl mem_cons_self, fun span hspan => .inr ?_⟩, fun span hspan => ?_⟩
    · rcases ihBelow span hspan with hchild | ⟨v, hv, hsub⟩
      · obtain ⟨-, hparent⟩ := (mem_children_iff hdoms).mp hchild
        have hmem : span.block ∈ inner.map (·.block) := mem_map_of_mem hspan
        exact ⟨b, hparent, ((singleton_sublist.mpr hmem).cons_cons b).trans (sublist_append_left ..)⟩
      · exact ⟨v, hv, (hsub.cons b).trans (sublist_append_left ..)⟩
    · exact (ihRest span hspan).imp (mem_cons_of_mem _) fun ⟨v, hv, hsub⟩ =>
        ⟨v, hv, hsub.trans (sublist_append_right ..)⟩

/-- Later blocks are not above earlier ones, and below them if they are left first. -/
theorem ordered (hapart : work.Pairwise (Apart (parentOf graph))) :
    spans.Pairwise fun first second => first.enter < second.enter ∧
      ¬Above (parentOf graph) second.block first.block ∧
      (Above (parentOf graph) first.block second.block ↔ second.exit ≤ first.exit) := by
  obtain ⟨rank, hrooted, -⟩ := hdoms.immediate.rooted
  induction htours with
  | done => exact .nil
  | @next b start mid last rest inner outer hbelow hrest ihBelow ihRest =>
    obtain ⟨hhead, htail⟩ := pairwise_cons.mp hapart
    have hinner := hbelow.times
    have houter := hrest.times.2
    have hmid : start ≤ mid := by omega
    have hunder : ∀ span ∈ inner, ∃ child ∈ (ofGraph graph).children b,
        Above (parentOf graph) child span.block := fun span hspan =>
      (hbelow.mem_iff hdoms).mp ⟨span, hspan, rfl⟩
    refine pairwise_append.mpr ⟨pairwise_cons.mpr ⟨fun second hsecond => ?_,
      ihBelow (apart_children hdoms b)⟩, ihRest htail, fun first hfirst second hsecond => ?_⟩
    · obtain ⟨child, hchild, habove⟩ := hunder second hsecond
      obtain ⟨hne, hparent⟩ := (mem_children_iff hdoms).mp hchild
      have htimes := hinner.2 second hsecond
      refine ⟨htimes.1, fun h => ?_, iff_of_true ((Above.up hparent .refl).trans habove)
        htimes.2.2.le⟩
      exact absurd ((habove.trans h).rank_le hrooted) (Nat.not_le.mpr (hrooted.lower hne hparent))
    · -- the walk leaves the block before it comes to the others
      have hfirst : Above (parentOf graph) b first.block ∧ first.enter ≤ mid ∧ first.exit ≤ mid := by
        rcases mem_cons.mp hfirst with rfl | hfirst
        · exact ⟨.refl, hmid, Nat.le_refl _⟩
        · have htimes := hinner.2 first hfirst
          exact ⟨(above_iff_children hdoms).mpr (.inr (hunder first hfirst)), by omega, by omega⟩
      obtain ⟨other, hother, habove⟩ := (hrest.mem_iff hdoms).mp ⟨second, hsecond, rfl⟩
      have happart := (hhead other hother).below hfirst.1 habove
      have htimes := houter second hsecond
      exact ⟨by omega, happart.2, iff_of_false happart.1 (by omega)⟩

end Tours

namespace Walk

variable {children : Nat → List Nat} {spans : List Span}

theorem size_run (children : Nat → List Nat) (fuel : Nat) (walk : Walk) :
    (walk.run children fuel).enter.size = walk.enter.size ∧
      (walk.run children fuel).exit.size = walk.exit.size := by
  fun_induction Walk.run children fuel walk with
  | case1 => exact ⟨rfl, rfl⟩
  | case2 fuel walk next hstep ih =>
    rw [ih.1, ih.2]
    unfold step? at hstep
    split at hstep
    next => cases hstep
    next =>
      split at hstep <;> cases hstep
      · exact ⟨Array.size_setIfInBounds, rfl⟩
      · exact ⟨rfl, Array.size_setIfInBounds⟩
  | case3 => exact ⟨rfl, rfl⟩

theorem size_eq {walk after : Walk} {steps : Nat}
    (hrun : ∀ fuel, walk.run children (steps + fuel) = after.run children fuel) :
    after.enter.size = walk.enter.size ∧ after.exit.size = walk.exit.size := by
  have hsize := size_run children (steps + 0) walk
  rwa [hrun, run] at hsize

/-- When a block was entered and left so far. -/
def times (walk : Walk) (b : Nat) : Option Nat × Option Nat :=
  (walk.enter[b]?.getD none, walk.exit[b]?.getD none)

/-- The walk around the trees below the block on top, until that block is left, notes the times
of their blocks. -/
theorem run_tours (htours : Tours children work start last spans) {size : Nat}
    (hnodup : (b :: spans.map (·.block)).Nodup) (hinside : ∀ c ∈ b :: spans.map (·.block), c < size)
    {walk : Walk} (hsize : walk.enter.size = size ∧ walk.exit.size = size) {next : Nat}
    {rest : List (Nat × Nat)} (hstack : walk.stack = (b, next) :: rest)
    (hclock : walk.clock = start) (hwork : (children b).drop next = work) :
    ∃ after : Walk,
      (∀ fuel, walk.run children (2 * spans.length + 1 + fuel) = after.run children fuel) ∧
      after.stack = rest ∧ after.clock = last + 1 ∧
      after.times b = ((walk.times b).1, some last) ∧
      (∀ span ∈ spans, after.times span.block = (some span.enter, some span.exit)) ∧
      ∀ c ∉ b :: spans.map (·.block), after.times c = walk.times c := by
  induction htours generalizing walk b next rest with
  | done =>
    let left : Walk := { walk with
      clock := walk.clock + 1
      stack := rest
      exit := walk.exit.setIfInBounds b (some walk.clock) }
    have hleft (c : Nat) : left.times c =
        if c = b then ((walk.times c).1, some walk.clock) else walk.times c := by
      simp only [times, left, getD_setIfInBounds (hsize.2 ▸ hinside b mem_cons_self)]
      split <;> rfl
    refine ⟨left, fun fuel => ?_, rfl, congrArg (· + 1) hclock, ?_, by simp, fun c hc => ?_⟩
    · have hleave : walk.step? children = some left := by
        simp [step?, hstack, drop_eq_nil_iff.mp hwork, left]
      rw [length_nil, Nat.add_comm, run, hleave]
    · rw [hleft, if_pos rfl, hclock]
    · rw [hleft, if_neg (by simpa using hc)]
  | @next child start mid last more inner outer hbelow hrest ihBelow ihRest =>
    simp only [map_append, map_cons, cons_append, nodup_cons, nodup_append, mem_cons, mem_append,
      not_or] at hnodup
    simp only [map_append, map_cons, cons_append, forall_mem_cons, forall_mem_append] at hinside ⊢
    obtain ⟨⟨hne, hbInner, hbOuter⟩, ⟨hcInner, hcOuter⟩, hinner, houter, hdisjoint⟩ := hnodup
    obtain ⟨hb, hchild, hin, hout⟩ := hinside
    let entered : Walk := { walk with
      clock := walk.clock + 1
      stack := (child, 0) :: (b, next + 1) :: rest
      enter := walk.enter.setIfInBounds child (some walk.clock) }
    have henter : walk.step? children = some entered := by
      have hnext : (children b)[next]? = some child := by
        rw [← head?_drop, hwork]
        rfl
      simp [step?, hstack, hnext, entered]
    have hentered (c : Nat) : entered.times c =
        if c = child then (some start, (walk.times c).2) else walk.times c := by
      simp only [times, entered, getD_setIfInBounds (hsize.1 ▸ hchild), hclock]
      split <;> rfl
    obtain ⟨left, hrunIn, hstackIn, hclockIn, htimesIn, hnotedIn, hkeptIn⟩ := @ihBelow child
      (nodup_cons.mpr ⟨hcInner, hinner⟩) (forall_mem_cons.mpr ⟨hchild, hin⟩) entered
      (by simpa [entered] using hsize) 0 _ rfl (congrArg (· + 1) hclock) rfl
    obtain ⟨after, hrunOut, hstackOut, hclockOut, htimesOut, hnotedOut, hkeptOut⟩ := @ihRest b
      (nodup_cons.mpr ⟨hbOuter, houter⟩) (forall_mem_cons.mpr ⟨hb, hout⟩) left
      (by simpa [size_eq hrunIn, entered] using hsize) (next + 1) _ hstackIn hclockIn
      (by rw [← drop_drop, hwork, drop_one, tail_cons])
    -- a block keeps its times once it is left
    have hkept : ∀ c, c ≠ b → c ∉ outer.map (·.block) → after.times c = left.times c :=
      fun c hcb hc => hkeptOut c (by simp [hcb, hc])
    refine ⟨after, fun fuel => ?_, hstackOut, hclockOut, ?_, ⟨?_, fun span hspan => ?_, hnotedOut⟩,
      fun c hc => ?_⟩
    · have hfuel : 2 * (inner.length + outer.length + 1) + 1 + fuel =
          2 * inner.length + 1 + (2 * outer.length + 1 + fuel) + 1 := by omega
      rw [length_cons, length_append, hfuel, run, henter]
      exact (hrunIn _).trans (hrunOut fuel)
    · rw [htimesOut, hkeptIn b (by simp [hne, hbInner]), hentered, if_neg hne]
    · rw [hkept child (Ne.symm hne) hcOuter, htimesIn, hentered, if_pos rfl]
    · have hmem := mem_map_of_mem (f := (·.block)) hspan
      rw [hkept _ (fun h => hbInner (h ▸ hmem)) fun h => hdisjoint _ hmem _ h rfl]
      exact hnotedIn span hspan
    · simp only [mem_cons, mem_append, not_or] at hc
      obtain ⟨hcb, hcc, hcInner, hcOuter⟩ := hc
      rw [hkept c hcb hcOuter, hkeptIn c (by simp [hcc, hcInner]), hentered, if_neg hcc]

end Walk

/-! ## What the tree answers -/

theorem parents_eq (graph : Graph) (b : Nat) :
    (ofGraph graph).parent? b = graph.blocks[b]?.bind (·.immediateDominator) := by
  simp only [parent?, ofGraph, Array.getElem?_map]
  cases graph.blocks[b]? <;> rfl

theorem parents_of_ne (hne : b ≠ entry) : (ofGraph graph).parent? b = parentOf graph b := by
  rw [parents_eq, parentOf, if_neg hne]

theorem parents_entry (hdoms : Analyzed graph) : (ofGraph graph).parent? entry = none := by
  rw [parents_eq]
  cases hblock : graph.blocks[entry]? with
  | none => rfl
  | some block => exact hdoms.entry_parent hblock

theorem size_enter (graph : Graph) : (ofGraph graph).enter.size = graph.size := by
  simp [ofGraph, (Walk.size_run ..).1]

theorem above_entry_iff (hdoms : Analyzed graph) :
    Above (parentOf graph) entry b ↔ graph.Reachable b := by
  obtain ⟨rank, hrooted, -⟩ := hdoms.immediate.rooted
  rw [← hdoms.immediate.defined_iff]
  refine ⟨fun h => ?_, hrooted.above_root⟩
  cases h with
  | refl => exact Option.isSome_of_eq_some hrooted.loop
  | up hparent _ => exact Option.isSome_of_eq_some hparent

/-- The times in the tree of a graph are those of a walk around it. -/
structure Clocked (graph : Graph) (last : Nat) (spans : List Span) : Prop where
  tours : Tours (ofGraph graph).children [entry] 0 last spans
  noted : ∀ span ∈ spans, ((ofGraph graph).entered? span.block,
    (ofGraph graph).left? span.block) = (some span.enter, some span.exit)
  never : ∀ b ∉ spans.map (·.block), (ofGraph graph).entered? b = none

namespace Clocked

variable {spans : List Span} (hdoms : Analyzed graph)
include hdoms

variable (htours : Tours (ofGraph graph).children [entry] 0 last spans)
include htours

theorem mem_blocks_iff : b ∈ spans.map (·.block) ↔ graph.Reachable b := by
  rw [mem_map, htours.mem_iff hdoms, ← above_entry_iff hdoms]
  simp

theorem nodup_blocks : (spans.map (·.block)).Nodup := by
  have hordered := htours.ordered hdoms (pairwise_singleton ..)
  refine pairwise_map.mpr (hordered.imp ?_)
  intro first second hpair heq
  rw [heq] at hpair
  exact hpair.2.1 .refl

theorem length_le : spans.length ≤ graph.size := by
  have hsub : spans.map (·.block) ⊆ range graph.size := fun b hb =>
    mem_range.mpr (((mem_blocks_iff hdoms htours).mp hb).lt_size hdoms.mirrored hdoms.nonempty)
  simpa using ((nodup_blocks hdoms htours).subperm hsub).length_le

/-- The walk ends by itself, with the times noted. -/
theorem of_tours : Clocked graph last spans := by
  have hlength := length_le hdoms htours
  have hinside : ∀ b ∈ spans.map (·.block), b < graph.size := fun b hb =>
    ((mem_blocks_iff hdoms htours).mp hb).lt_size hdoms.mirrored hdoms.nonempty
  have hnodup := nodup_blocks hdoms htours
  have hwhole := htours
  cases htours with
  | @next _ _ mid _ _ inner _ hbelow hrest =>
    cases hrest
    rw [append_nil] at *
    let first : Walk := {
      clock := 1
      stack := [(entry, 0)]
      enter := (Array.replicate graph.size none).setIfInBounds entry (some 0)
      exit := Array.replicate graph.size none }
    have hfirst (b : Nat) : first.times b = (if b = entry then some 0 else none, none) := by
      have hentry : entry < (Array.replicate graph.size (none : Option Nat)).size := by
        simpa using hinside entry mem_cons_self
      simp only [Walk.times, first, getD_setIfInBounds hentry, getD_replicate]
    have hsize : first.enter.size = graph.size ∧ first.exit.size = graph.size := by simp [first]
    obtain ⟨after, hrun, hstack, -, htimes, hnoted, hkept⟩ :=
      Walk.run_tours hbelow hnodup hinside hsize rfl rfl rfl
    have hafter : first.run (ofGraph graph).children (2 * graph.size) = after := by
      rw [length_cons] at hlength
      obtain ⟨fuel, hfuel⟩ : ∃ fuel, 2 * graph.size = 2 * inner.length + 1 + fuel :=
        Nat.exists_eq_add_of_le (by omega)
      rw [hfuel, hrun]
      cases fuel <;> simp [Walk.run, Walk.step?, hstack]
    have htree (b : Nat) : ((ofGraph graph).entered? b, (ofGraph graph).left? b) =
        after.times b := congrArg (·.times b) hafter
    refine ⟨hwhole, forall_mem_cons.mpr ⟨?_, fun span hspan => ?_⟩, fun b hb => ?_⟩
    · rw [htree, htimes, hfirst, if_pos rfl]
    · rw [htree, hnoted span hspan]
    · have hnever := (htree b).trans ((hkept b hb).trans (hfirst b))
      rw [if_neg (ne_of_not_mem_cons hb)] at hnever
      exact congrArg Prod.fst hnever

end Clocked

/-- Every reachable block once, behind its parent. -/
structure Preorder (graph : Graph) (preorder : List Nat) : Prop where
  nodup : preorder.Nodup
  mem_iff : ∀ {b}, b ∈ preorder ↔ graph.Reachable b
  parent_first : ∀ {b v}, b ∈ preorder → b ≠ entry → parentOf graph b = some v →
    [v, b].Sublist preorder
  descends : Descends (ofGraph graph).children [entry] preorder

theorem Descends.eq_descend {children : Nat → List Nat} {order : List Nat}
    (hdescends : Descends children work order) {fuel : Nat} (hfuel : order.length ≤ fuel) :
    descend children fuel work = order := by
  induction hdescends generalizing fuel with
  | done => cases fuel <;> rfl
  | next hrest ih =>
    cases fuel with
    | zero => cases hfuel
    | succ fuel => rw [descend, ih (Nat.le_of_succ_le_succ hfuel)]

variable (hdoms : Analyzed graph)
include hdoms

theorem exists_clocked : ∃ last spans, Clocked graph last spans := by
  have hentry : ∀ w ∈ [entry], graph.Reachable w := fun w hw => mem_singleton.mp hw ▸ .entry
  obtain ⟨last, spans, htours⟩ := exists_tours hdoms hentry 0
  exact ⟨last, spans, .of_tours hdoms htours⟩

theorem preorder_ofGraph : Preorder graph (ofGraph graph).preorder := by
  obtain ⟨last, spans, hclocked⟩ := exists_clocked hdoms
  have htours := hclocked.tours
  have hdescends : Descends (ofGraph graph).children [entry] (spans.map (·.block)) := by
    simpa using htours.descends .done
  have hpreorder : (ofGraph graph).preorder = spans.map (·.block) := by
    refine hdescends.eq_descend ?_
    simpa [ofGraph] using Clocked.length_le hdoms htours
  rw [hpreorder]
  refine ⟨Clocked.nodup_blocks hdoms htours, Clocked.mem_blocks_iff hdoms htours, ?_, hdescends⟩
  intro b v hb hne hv
  obtain ⟨span, hspan, rfl⟩ := mem_map.mp hb
  rcases htours.parent_first hdoms span hspan with hentry | ⟨other, hother, hsub⟩
  · exact absurd (mem_singleton.mp hentry) hne
  · obtain rfl := Option.mem_unique hv hother
    exact hsub

theorem isReachable_iff : (ofGraph graph).isReachable b ↔ graph.Reachable b := by
  obtain ⟨last, spans, hclocked⟩ := exists_clocked hdoms
  rw [← Clocked.mem_blocks_iff hdoms hclocked.tours, isReachable]
  by_cases hb : b ∈ spans.map (·.block)
  · obtain ⟨span, hspan, rfl⟩ := mem_map.mp hb
    simp [(Prod.mk.inj (hclocked.noted span hspan)).1, hb]
  · simp [hclocked.never b hb, hb]

/-- The tree knows dominance. -/
theorem dominates_iff :
    (ofGraph graph).dominates a b ↔ graph.Reachable b ∧ Above (parentOf graph) a b := by
  obtain ⟨rank, hrooted, -⟩ := hdoms.immediate.rooted
  obtain ⟨last, spans, hclocked⟩ := exists_clocked hdoms
  have hordered := hclocked.tours.ordered hdoms (pairwise_singleton ..)
  -- of two blocks on the walk only the first can be above the other
  have hnested : ∀ ⦃first⦄, first ∈ spans → ∀ ⦃second⦄, second ∈ spans →
      (Above (parentOf graph) first.block second.block ↔
        first.enter ≤ second.enter ∧ second.exit ≤ first.exit) := by
    refine Pairwise.forall_of_forall_of_flip (fun span _ => by simp [Above.refl])
      (hordered.imp ?_) (hordered.imp ?_)
    · rintro first second ⟨henter, -, habove⟩
      exact habove.trans (and_iff_right henter.le).symm
    · rintro first second ⟨henter, hnot, -⟩
      exact iff_of_false hnot fun h => Nat.not_le.mpr henter h.1
  have htimes : graph.Reachable a → graph.Reachable b → (Above (parentOf graph) a b ↔
      ((ofGraph graph).entered? a).getD 0 ≤ ((ofGraph graph).entered? b).getD 0 ∧
        ((ofGraph graph).left? b).getD 0 ≤ ((ofGraph graph).left? a).getD 0) := by
    intro ha hb
    rw [← Clocked.mem_blocks_iff hdoms hclocked.tours, mem_map] at ha hb
    obtain ⟨first, hfirst, rfl⟩ := ha
    obtain ⟨second, hsecond, rfl⟩ := hb
    obtain ⟨henter, hexit⟩ := Prod.mk.inj (hclocked.noted first hfirst)
    obtain ⟨henter', hexit'⟩ := Prod.mk.inj (hclocked.noted second hsecond)
    rw [henter, hexit, henter', hexit']
    exact hnested hfirst hsecond
  simp only [dominates, Bool.and_eq_true, isReachable_iff hdoms, decide_eq_true_eq, and_assoc]
  constructor
  · rintro ⟨ha, hb, hbetween⟩
    exact ⟨hb, (htimes ha hb).mpr hbetween⟩
  · rintro ⟨hb, habove⟩
    have ha := hdoms.immediate.defined_iff.mp
      (habove.defined hrooted (hdoms.immediate.defined_iff.mpr hb))
    exact ⟨ha, hb, (htimes ha hb).mp habove⟩

end GraphJit.DominatorTree
