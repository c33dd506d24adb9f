import GraphJit.IR.Order
import GraphJit.Proofs.Paths
import Mathlib.Data.List.Nodup
import Mathlib.Logic.Relation

/-! # The depth first walk

The open blocks, the first opened first, followed by the finished blocks, only
ever grow by insertion behind the open ones. Nothing but the entry gets in
without a predecessor in front of it, and what is finished has all its successors
in the list. An open block leads to those opened after it, so a block is finished
before those that lead to it, unless it leads back to them.
-/

namespace GraphJit.Graph

open List

variable {graph : Graph}

/-- Open and finished blocks in the order of the result. -/
def line (order : List Nat) (stack : List (Nat × List Nat)) : List Nat :=
  (stack.map Prod.fst).reverse ++ order

/-- There is a way from `a` to `b`. -/
abbrev Leads (graph : Graph) : Nat → Nat → Prop := Relation.ReflTransGen graph.Edge

theorem idxOf_lt_of_sublist {order : List Nat} {p b : Nat} (hnodup : order.Nodup)
    (hsub : [p, b].Sublist order) : order.idxOf p < order.idxOf b := by
  induction order with
  | nil => simp at hsub
  | cons x rest ih =>
    obtain ⟨hx, hrest⟩ := nodup_cons.mp hnodup
    rcases cons_sublist_cons'.mp hsub with htail | ⟨rfl, hb⟩
    · have hp : x ≠ p := fun h => hx (h ▸ htail.subset mem_cons_self)
      have hb : x ≠ b := fun h => hx (h ▸ htail.subset (by simp))
      rw [idxOf_cons_ne _ hp, idxOf_cons_ne _ hb]
      exact Nat.succ_lt_succ (ih hrest htail)
    · have hb : p ≠ b := fun h => hx (h ▸ hb.subset (by simp))
      rw [idxOf_cons_self, idxOf_cons_ne _ hb]
      exact Nat.succ_pos _

/-- What holds at every step of the walk. -/
structure Walking (graph : Graph) (visited : Array Bool) (order : List Nat)
    (stack : List (Nat × List Nat)) : Prop where
  size : visited.size = graph.size
  marked : ∀ b, visited[b]? = some true ↔ b ∈ line order stack
  nodup : (line order stack).Nodup
  head : (line order stack).head? = some entry
  fed : ∀ b ∈ line order stack, b = entry ∨ ∃ p, graph.Edge p b ∧ [p, b].Sublist (line order stack)
  finished : ∀ b ∈ order, ∀ t, graph.Edge b t → t ∈ line order stack
  pending : ∀ b todo, (b, todo) ∈ stack → (∀ t ∈ todo, graph.Edge b t) ∧
    ∀ t, graph.Edge b t → t ∈ todo ∨ t ∈ line order stack
  nested : (stack.map Prod.fst).Pairwise fun later earlier => graph.Leads earlier later
  ordered : ∀ b ∈ order, ∀ t, graph.Edge b t → [b, t].Sublist (line order stack) ∨ graph.Leads t b

/-- Reachable blocks, each but the entry behind one of its predecessors. -/
structure DepthFirst (graph : Graph) (order : List Nat) : Prop where
  nodup : order.Nodup
  head : order.head? = some entry
  mem_iff : ∀ {b}, b ∈ order ↔ graph.Reachable b
  fed : ∀ b ∈ order, b = entry ∨ ∃ p, graph.Edge p b ∧ [p, b].Sublist order
  ordered : ∀ b ∈ order, ∀ t, graph.Edge b t → [b, t].Sublist order ∨ graph.Leads t b

namespace Walking

variable {visited : Array Bool} {order : List Nat} {stack : List (Nat × List Nat)}

theorem start (hsize : 0 < graph.size) :
    Walking graph ((Array.replicate graph.size false).setIfInBounds entry true) []
      [(entry, graph.successors entry)] := by
  refine ⟨by simp, ?_, by simp [line], rfl, ?_, by simp, ?_, pairwise_singleton .., by simp⟩
  · intro b
    rw [Array.getElem?_setIfInBounds]
    by_cases hb : entry = b
    · subst hb
      simpa [line, entry] using Nat.ne_of_gt hsize
    · have hmem : b ∉ line [] [(entry, graph.successors entry)] := by
        simpa [line] using fun h : b = entry => hb h.symm
      simp [hb, hmem, Array.getElem?_replicate]
  · intro b hb
    exact .inl (by simpa [line] using hb)
  · intro b todo hmem
    obtain ⟨rfl, rfl⟩ : b = entry ∧ todo = graph.successors entry := by simpa using hmem
    exact ⟨fun t ht => ht, fun t ht => .inl ht⟩

/-- A block without anything left to look at is finished. -/
theorem leave {b : Nat} (hwalk : Walking graph visited order ((b, []) :: stack)) :
    Walking graph visited (b :: order) stack := by
  have hline : line (b :: order) stack = line order ((b, []) :: stack) := by simp [line]
  obtain ⟨hleads, hnested⟩ := pairwise_cons.mp hwalk.nested
  refine ⟨hwalk.size, ?_, ?_, ?_, ?_, ?_, ?_, hnested, ?_⟩ <;> rw [hline]
  · exact hwalk.marked
  · exact hwalk.nodup
  · exact hwalk.head
  · exact hwalk.fed
  · intro c hc t ht
    rcases mem_cons.mp hc with rfl | hmem
    · exact ((hwalk.pending c [] mem_cons_self).2 t ht).resolve_left (by simp)
    · exact hwalk.finished c hmem t ht
  · exact fun c todo hmem => hwalk.pending c todo (.tail _ hmem)
  · intro c hc t ht
    rcases mem_cons.mp hc with rfl | hmem
    · -- what the block leads to is open, and then leads to it, or finished already
      have hin := ((hwalk.pending c [] mem_cons_self).2 t ht).resolve_left (by simp)
      rw [← hline] at hin ⊢
      rcases mem_append.mp hin with hopen | hdone
      · exact .inr (hleads t (mem_reverse.mp hopen))
      · rcases mem_cons.mp hdone with rfl | hdone
        · exact .inr .refl
        · exact .inl (((singleton_sublist.mpr hdone).cons_cons c).trans (sublist_append_right ..))
    · exact hwalk.ordered c hmem t ht

section

variable {b target : Nat} {more : List Nat}
  (hwalk : Walking graph visited order ((b, target :: more) :: stack))
include hwalk

/-- An edge to a block that was seen before is passed over. -/
theorem skip (hseen : visited[target]? = some true) :
    Walking graph visited order ((b, more) :: stack) := by
  refine ⟨hwalk.size, hwalk.marked, hwalk.nodup, hwalk.head, hwalk.fed, hwalk.finished, ?_,
    hwalk.nested, hwalk.ordered⟩
  intro c todo hmem
  rcases mem_cons.mp hmem with heq | hmem
  · cases heq
    obtain ⟨hedges, hall⟩ := hwalk.pending _ _ mem_cons_self
    refine ⟨fun t ht => hedges t (.tail _ ht), fun t ht => ?_⟩
    rcases hall t ht with htodo | hin
    · rcases mem_cons.mp htodo with rfl | hmore
      · exact .inr ((hwalk.marked t).mp hseen)
      · exact .inl hmore
    · exact .inr hin
  · exact hwalk.pending c todo (.tail _ hmem)

/-- A new block is opened behind the open ones. -/
theorem visit (hnew : visited[target]? = some false) (hlt : target < visited.size) :
    Walking graph (visited.set target true hlt) order
      ((target, graph.successors target) :: (b, more) :: stack) := by
  let front := (((b, more) :: stack).map Prod.fst).reverse
  have hold : line order ((b, target :: more) :: stack) = front ++ order := rfl
  have hline : line order ((target, graph.successors target) :: (b, more) :: stack) =
      front ++ target :: order := by simp [line, front]
  -- the line keeps its order, so only the new block and the one before it need a look
  have hgrow : (front ++ order).Sublist (front ++ target :: order) :=
    (List.Sublist.refl front).append (sublist_cons_self _ _)
  have hmem : ∀ c, c ∈ front ++ target :: order ↔ c = target ∨ c ∈ front ++ order := by
    intro c
    simp only [mem_append, mem_cons]
    tauto
  have hfresh : target ∉ front ++ order := by
    rw [← hold, ← hwalk.marked, hnew]
    simp
  have hedge := (hwalk.pending b _ mem_cons_self).1 target mem_cons_self
  refine ⟨by simpa using hwalk.size, ?_, ?_, ?_, ?_, ?_, ?_, ?_, ?_⟩ <;> try rw [hline]
  · intro c
    rw [hmem, ← hold, ← hwalk.marked, Array.getElem?_set]
    by_cases hc : target = c
    · simp [hc]
    · simp [hc, Ne.symm hc]
  · have hnodup := hwalk.nodup
    rw [hold] at hnodup
    exact (perm_middle.nodup_iff).mpr (nodup_cons.mpr ⟨hfresh, hnodup⟩)
  · have hhead := hwalk.head
    rw [hold] at hhead
    have hfront : front ≠ [] := by simp [front]
    rwa [head?_append_of_ne_nil _ hfront] at hhead ⊢
  · intro c hc
    rcases (hmem c).mp hc with rfl | hc
    · refine .inr ⟨b, hedge, ?_⟩
      have hb : b ∈ front := by simp [front]
      exact (singleton_sublist.mpr hb).append (singleton_sublist.mpr (mem_cons_self (l := order)))
    · rcases hwalk.fed c hc with rfl | ⟨p, hp, hsub⟩
      · exact .inl rfl
      · exact .inr ⟨p, hp, hsub.trans hgrow⟩
  · exact fun c hc t ht => hgrow.subset (hwalk.finished c hc t ht)
  · intro c todo hc
    rcases mem_cons.mp hc with heq | hc
    · cases heq
      exact ⟨fun t ht => ht, fun t ht => .inl ht⟩
    · rcases mem_cons.mp hc with heq | hc
      · cases heq
        obtain ⟨hedges, hall⟩ := hwalk.pending _ _ mem_cons_self
        refine ⟨fun t ht => hedges t (.tail _ ht), fun t ht => ?_⟩
        rcases hall t ht with htodo | hin
        · rcases mem_cons.mp htodo with rfl | hmore
          · exact .inr ((hmem t).mpr (.inl rfl))
          · exact .inl hmore
        · exact .inr (hgrow.subset hin)
      · obtain ⟨hedges, hall⟩ := hwalk.pending c todo (.tail _ hc)
        exact ⟨hedges, fun t ht => (hall t ht).imp_right fun h => hgrow.subset h⟩
  · refine pairwise_cons.mpr ⟨fun earlier hearlier => ?_, hwalk.nested⟩
    rcases mem_cons.mp hearlier with rfl | hbelow
    · exact .single hedge
    · exact ((pairwise_cons.mp hwalk.nested).1 earlier hbelow).tail hedge
  · exact fun c hc t ht => (hwalk.ordered c hc t ht).imp_left fun h => h.trans hgrow

end

theorem depthFirst (hwalk : Walking graph visited order []) : DepthFirst graph order where
  nodup := hwalk.nodup
  head := hwalk.head
  fed := hwalk.fed
  ordered := hwalk.ordered
  mem_iff {b} := by
    constructor
    · -- predecessors stand in front, so this is an induction on the position
      intro hb
      induction hk : order.idxOf b using Nat.strongRecOn generalizing b with
      | _ k ih =>
        rcases hwalk.fed b hb with rfl | ⟨p, hedge, hsub⟩
        · exact .entry
        · have hp : p ∈ order := hsub.subset mem_cons_self
          exact (ih _ (hk ▸ idxOf_lt_of_sublist hwalk.nodup hsub) hp rfl).step hedge
    · intro hreach
      refine Reachable.induct ?_ ?_ hreach
      · exact mem_of_head? hwalk.head
      · exact fun _ ha hedge => hwalk.finished _ ha _ hedge

/-- The walk comes to an end if no edge leaves the graph. -/
theorem exists_walk (hrange : ∀ {a b}, graph.Edge a b → b < graph.size)
    (hwalk : Walking graph visited order stack) :
    ∃ result, walk graph visited order stack = .ok result ∧ DepthFirst graph result := by
  fun_induction walk graph visited order stack with
  | case1 visited order => exact ⟨order, rfl, hwalk.depthFirst⟩
  | case2 visited order b rest ih => exact ih hwalk.leave
  | case3 visited order b target more rest hlt hseen ih =>
    exact ih (hwalk.skip (by simp [Array.getElem?_eq_getElem hlt, hseen]))
  | case4 visited order b target more rest hlt hseen ih =>
    exact ih (hwalk.visit (by simpa [Array.getElem?_eq_getElem hlt] using hseen) hlt)
  | case5 visited order b target more rest hlt =>
    have hedge := (hwalk.pending b _ mem_cons_self).1 target mem_cons_self
    exact absurd (hwalk.size ▸ hrange hedge) hlt

end Walking

/-- A graph has a reverse post-order if it has an entry and no edge leaves it. -/
theorem exists_reversePostorder (hsize : 0 < graph.size)
    (hrange : ∀ {a b}, graph.Edge a b → b < graph.size) :
    ∃ order, graph.reversePostorder = .ok order ∧ DepthFirst graph order := by
  obtain ⟨order, horder, hdepth⟩ := (Walking.start hsize).exists_walk hrange
  refine ⟨order, ?_, hdepth⟩
  rw [reversePostorder, if_neg (Nat.ne_of_gt hsize)]
  exact horder

/-- The post-order of a graph that no edge leaves: every reachable block once, the entry last,
and behind the blocks it leads to, except those that lead back to it. -/
theorem postorder_orders_reachable (hsize : 0 < graph.size)
    (hrange : ∀ block ∈ graph.blocks.toList, ∀ t ∈ block.successors, t < graph.size) :
    ∃ order, graph.postorder = .ok order ∧ graph.reversePostorder = .ok order.reverse ∧
      order.Nodup ∧ (∀ b, b ∈ order ↔ graph.Reachable b) ∧ order.getLast? = some entry ∧
      (∀ u v, graph.Reachable u → graph.Edge u v → ¬graph.Leads v u → [v, u].Sublist order) ∧
      ∀ b, graph.Reachable b → b ≠ entry →
        ∃ p, graph.Edge p b ∧ [p, b].Sublist order.reverse := by
  have hedges : ∀ {a b}, graph.Edge a b → b < graph.size := by
    intro a b hedge
    obtain ⟨block, hblock⟩ := exists_block (source_lt_size hedge)
    exact hrange block (mem_blocks_iff.mpr ⟨a, hblock⟩) b (successors_eq hblock ▸ hedge)
  obtain ⟨order, horder, hdepth⟩ := exists_reversePostorder hsize hedges
  refine ⟨order.reverse, by rw [postorder, horder]; rfl, by rwa [reverse_reverse],
    nodup_reverse.mpr hdepth.nodup, fun b => mem_reverse.trans hdepth.mem_iff,
    by rw [getLast?_reverse, hdepth.head], fun u v hu hedge hback => ?_, fun b hb hne => ?_⟩
  · have hsub := (hdepth.ordered u (hdepth.mem_iff.mpr hu) v hedge).resolve_right hback
    exact hsub.reverse
  · rw [reverse_reverse]
    exact (hdepth.fed b (hdepth.mem_iff.mpr hb)).resolve_left hne

/-- A loop of two blocks with a way out. -/
def escapingLoop : Graph where
  blocks := #[
    { index := 0, successors := [1] },
    { index := 1, successors := [2, 3], predecessors := [0, 2] },
    { index := 2, successors := [1], predecessors := [1] },
    { index := 3, predecessors := [1] }]

theorem postorder_orders_reachable_escapingLoop : 0 < escapingLoop.size ∧
    (∀ block ∈ escapingLoop.blocks.toList, ∀ t ∈ block.successors, t < escapingLoop.size) ∧
    ∃ order, escapingLoop.postorder = .ok order ∧ [3, 1].Sublist order := by
  have hrange : ∀ block ∈ escapingLoop.blocks.toList, ∀ t ∈ block.successors,
      t < escapingLoop.size := by decide
  obtain ⟨order, horder, -, -, -, -, hbefore, -⟩ :=
    postorder_orders_reachable (by decide) hrange
  have hedge : escapingLoop.Edge 1 3 := (by decide : 3 ∈ [2, 3])
  refine ⟨by decide, hrange, order, horder,
    hbefore 1 3 (.step .entry (by decide : 1 ∈ [1])) hedge fun hleads => ?_⟩
  -- nothing leaves the last block
  obtain hsame | ⟨t, ht, -⟩ := hleads.cases_head
  · cases hsame
  · exact not_mem_nil ht

namespace DepthFirst

variable {order : List Nat}

theorem entry_mem (hdepth : DepthFirst graph order) : entry ∈ order := hdepth.mem_iff.mpr .entry

/-- Every block but the entry has a predecessor in front of it. -/
theorem exists_earlier (hdepth : DepthFirst graph order) {b : Nat} (hb : b ∈ order)
    (hne : b ≠ entry) : ∃ p ∈ order, graph.Edge p b ∧ order.idxOf p < order.idxOf b := by
  obtain ⟨p, hedge, hsub⟩ := (hdepth.fed b hb).resolve_left hne
  exact ⟨p, hsub.subset mem_cons_self, hedge, idxOf_lt_of_sublist hdepth.nodup hsub⟩

end DepthFirst

/-! ## Marks -/

theorem getElem?_foldl_marks (blocks : List Nat) (marks : Array Bool) {b : Nat}
    (hb : b < marks.size) : (blocks.foldl (fun marks b => marks.setIfInBounds b true) marks)[b]? =
      if b ∈ blocks then some true else marks[b]? := by
  induction blocks generalizing marks with
  | nil => simp
  | cons c rest ih =>
    rw [foldl_cons, ih _ (by simpa using hb)]
    by_cases hcb : c = b
    · subst hcb
      simp [hb]
    · rw [Array.getElem?_setIfInBounds_ne hcb]
      simp [Ne.symm hcb]

theorem size_foldl {α β : Type} {step : Array α → β → Array α}
    (hstep : ∀ array item, (step array item).size = array.size) (items : List β)
    (array : Array α) : (items.foldl step array).size = array.size := by
  induction items generalizing array with
  | nil => rfl
  | cons item rest ih => rw [foldl_cons, ih, hstep]

end GraphJit.Graph
