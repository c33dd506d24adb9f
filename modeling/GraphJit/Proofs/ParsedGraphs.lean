import GraphJit.IR.Parser
import GraphJit.Proofs.Links
import GraphJit.Proofs.Results

/-! # Graphs that come from program text

Blocks are opened in order, so each carries its position. Edges are added to both of
their blocks at once, so the two lists mirror each other.
-/

namespace GraphJit

namespace Graph

variable {graph result : Graph}

/-! ## Adding an edge -/

variable {b src target : Nat} {change : Block → Block}

section

variable (hmodify : graph.modify b change = .ok result)
include hmodify

theorem of_modify_eq_ok :
    b < graph.size ∧ result = { graph with blocks := graph.blocks.modify b change } := by
  unfold modify at hmodify
  split at hmodify
  next hb =>
    cases hmodify
    exact ⟨hb, rfl⟩
  next => cases hmodify

theorem indexed_of_modify (hchange : ∀ block, (change block).index = block.index)
    (hidx : graph.Indexed) : result.Indexed := by
  obtain ⟨-, rfl⟩ := of_modify_eq_ok hmodify
  intro q block hblock
  rw [Array.getElem?_modify] at hblock
  split at hblock
  next =>
    obtain ⟨old, hold, rfl⟩ := Option.map_eq_some_iff.mp hblock
    rw [hchange]
    exact hidx hold
  next => exact hidx hblock

theorem successors_of_modify (more : List Nat)
    (hchange : ∀ block, (change block).successors = block.successors ++ more) (q : Nat) :
    result.successors q = graph.successors q ++ if q = b then more else [] := by
  obtain ⟨hb, rfl⟩ := of_modify_eq_ok hmodify
  obtain ⟨home, hhome⟩ := exists_block hb
  by_cases hq : q = b
  · subst hq
    simp [successors, Array.getElem?_modify, hhome, hchange]
  · simp [successors, Array.getElem?_modify, hq, Ne.symm hq]

theorem predecessors_of_modify (more : List Nat)
    (hchange : ∀ block, (change block).predecessors = block.predecessors ++ more) (q : Nat) :
    result.predecessors q = graph.predecessors q ++ if q = b then more else [] := by
  obtain ⟨hb, rfl⟩ := of_modify_eq_ok hmodify
  obtain ⟨home, hhome⟩ := exists_block hb
  by_cases hq : q = b
  · subst hq
    simp [predecessors, Array.getElem?_modify, hhome, hchange]
  · simp [predecessors, Array.getElem?_modify, hq, Ne.symm hq]

end

variable (hadd : graph.addEdge src target = .ok result)
include hadd

theorem mirrored_addEdge (hmirror : graph.Mirrored) : result.Mirrored := by
  obtain ⟨mid, hmiddle, hresult⟩ := of_bind hadd
  intro a b
  rw [successors_of_modify hresult [] (by simp), successors_of_modify hmiddle [target] fun _ => rfl,
    predecessors_of_modify hresult [src] fun _ => rfl,
    predecessors_of_modify hmiddle [] (by simp)]
  -- both lists grow by one entry, at the two ends of the edge
  have hab := hmirror a b
  simp only [List.count_append, hab]
  by_cases ha : a = src
  · by_cases hb : b = target
    · simp [ha, hb]
    · simp [ha, hb, Ne.symm hb]
  · by_cases hb : b = target
    · simp [ha, hb, Ne.symm ha]
    · simp [ha, hb]

theorem indexed_addEdge (hidx : graph.Indexed) : result.Indexed := by
  obtain ⟨mid, hmiddle, hresult⟩ := of_bind hadd
  exact indexed_of_modify hresult (fun _ => rfl) (indexed_of_modify hmiddle (fun _ => rfl) hidx)

end Graph

namespace Parser

/-! ## Reading lines -/

/-- What has been read are blocks in order, without edges. -/
def Draft.Tidy (draft : Draft) : Prop :=
  ∀ ⦃b : Nat⦄ ⦃block : Block⦄, draft.graph.blocks[b]? = some block →
    block.index = b ∧ block.successors = [] ∧ block.predecessors = []

theorem Draft.tidy_empty : Draft.Tidy {} := by
  intro b block hblock
  simp at hblock

variable {draft next : Draft} {line : Nat} {text : List Char} {graph result : Graph}

theorem Draft.Tidy.push (htidy : draft.Tidy) (hpush : draft.push text = .ok next) : next.Tidy := by
  unfold Draft.push at hpush
  split at hpush
  next => cases hpush
  next =>
    obtain ⟨⟨op, locals⟩, -, hnext⟩ := of_bind hpush
    cases hnext
    intro b block hblock
    rw [Array.getElem?_modify] at hblock
    split at hblock
    next =>
      obtain ⟨old, hold, rfl⟩ := Option.map_eq_some_iff.mp hblock
      exact @htidy b old hold
    next => exact htidy hblock

theorem Draft.Tidy.openBlock (htidy : draft.Tidy) (hopen : draft.openBlock line text = .ok next) :
    next.Tidy := by
  obtain ⟨⟨b, successors⟩, -, hrest⟩ := of_bind hopen
  dsimp only at hrest
  split at hrest
  next => cases hrest
  next =>
    cases hrest
    intro q block hblock
    rw [Graph.addBlock, Array.getElem?_push] at hblock
    split at hblock
    next hq =>
      cases hblock
      exact ⟨hq.symm, rfl, rfl⟩
    next => exact htidy hblock

theorem Draft.Tidy.readLine (htidy : draft.Tidy) {raw : List Char}
    (hread : draft.readLine line raw = .ok next) : next.Tidy := by
  unfold Draft.readLine at hread
  dsimp only at hread
  split at hread
  next =>
    cases hread
    exact htidy
  next =>
    split at hread
    next => exact htidy.openBlock hread
    next => exact htidy.push hread

theorem of_atLine_eq_ok {α : Type} {result : Except ParseCause α} {a : α}
    (hline : atLine line result = .ok a) : result = .ok a := by
  cases result with
  | error cause => cases hline
  | ok b =>
    cases hline
    rfl

/-- Reading lines keeps what reading one line keeps. -/
theorem readLines_keeps (keeps : Draft → Prop)
    (hstep : ∀ {draft next : Draft} {line : Nat} {raw : List Char},
      draft.readLine line raw = .ok next → keeps draft → keeps next) {last : Draft}
    {lines : List (List Char × Nat)} (hread : readLines draft lines = .ok last)
    (hdraft : keeps draft) : keeps last := by
  induction lines generalizing draft with
  | nil =>
    cases hread
    exact hdraft
  | cons entry rest ih =>
    obtain ⟨raw, number⟩ := entry
    obtain ⟨next, hnext, hrest⟩ := of_bind hread
    exact ih hrest (hstep (of_atLine_eq_ok hnext) hdraft)

theorem Draft.Tidy.indexed (htidy : draft.Tidy) : draft.graph.Indexed :=
  fun _ _ hblock => (htidy hblock).1

theorem Draft.Tidy.mirrored (htidy : draft.Tidy) : draft.graph.Mirrored := by
  intro a b
  have hsuccs : draft.graph.successors a = [] := by
    unfold Graph.successors
    split
    next block hblock => exact (htidy hblock).2.1
    next => rfl
  have hpreds : draft.graph.predecessors b = [] := by
    unfold Graph.predecessors
    split
    next block hblock => exact (htidy hblock).2.2
    next => rfl
  rw [hsuccs, hpreds]
  rfl

/-! ## Adding the edges -/

theorem addEdge_eq_ok {src target : Nat} (hadd : addEdge graph line src target = .ok result) :
    graph.addEdge src target = .ok result := by
  unfold addEdge at hadd
  split at hadd
  next graph hgraph =>
    cases hadd
    exact hgraph
  next => cases hadd

/-- Adding edges keeps what adding one edge keeps. -/
theorem addEdges_keeps (keeps : Graph → Prop) (hstep : ∀ {graph next : Graph} {src target : Nat},
      graph.addEdge src target = .ok next → keeps graph → keeps next)
    {edges : List (Nat × Nat × List Nat)} (hadd : addEdges graph edges = .ok result)
    (hgraph : keeps graph) : keeps result := by
  refine foldlM_keeps keeps ?_ hadd hgraph
  rintro state next ⟨line, src, targets⟩ hnext hstate
  exact foldlM_keeps keeps (fun hedge => hstep (addEdge_eq_ok hedge)) hnext hstate

end Parser

/-- The lists of edges of a graph read from text mirror each other, and every block carries
its position. -/
theorem mirrored_and_indexed_of_parse {text : String} {graph : Graph}
    (hparse : Graph.parse text = .ok graph) : graph.Mirrored ∧ graph.Indexed := by
  obtain ⟨draft, hdraft, hedges⟩ := of_bind hparse
  have htidy : draft.Tidy :=
    Parser.readLines_keeps _ (fun hread htidy => htidy.readLine hread) hdraft Parser.Draft.tidy_empty
  refine Parser.addEdges_keeps (fun graph => graph.Mirrored ∧ graph.Indexed) ?_ hedges
    ⟨htidy.mirrored, htidy.indexed⟩
  rintro state next src target hedge ⟨hmirror, hidx⟩
  exact ⟨Graph.mirrored_addEdge hedge hmirror, Graph.indexed_addEdge hedge hidx⟩

end GraphJit
