import GraphJit.Proofs.CompilationFaults

/-! # Verified graphs are those in single assignment form

Verification looks at the dominator tree and at positions in blocks. What it decides
is a property of paths: whichever way control takes to a use, the one definition of
the local has been passed.
-/

namespace GraphJit.SSA

open GraphJit.Graph Dominance DominatorTree List Operand

variable {src graph : Graph} {id b c : Nat} {visited : List Nat}

/-- The operations of the blocks on a path, in the order in which they are run. -/
def along (graph : Graph) (visited : List Nat) : List Operation :=
  (visited.reverse.filterMap (graph.blocks[·]?)).flatMap (·.operations)

/-- Static single assignment form, told by paths from the entry. -/
structure SsaForm (graph : Graph) : Prop where
  destinations : ∀ op ∈ graph.operations, op.destination.bind register? = none
  once : (definedLocals graph.operations).Nodup
  sources : ∀ ⦃b block⦄, graph.blocks[b]? = some block → graph.Reachable b →
    ∀ op ∈ block.operations, ∀ src ∈ op.sources, src.register? = none ∧
      ∀ id, src.localId? = some id → id ∈ definedLocals graph.operations
  inputCounts : ∀ ⦃b block⦄, graph.blocks[b]? = some block → graph.Reachable b →
    ∀ op ∈ block.operations, op.isPhi → op.inputs.length = block.predecessors.length
  uses : ∀ ⦃b block⦄, graph.blocks[b]? = some block →
    ∀ ⦃pos op⦄, block.operations[pos]? = some op → op.isPhi = false →
      ∀ src ∈ op.sources, ∀ id, src.localId? = some id →
        ∀ earlier, graph.Path b (b :: earlier) →
          id ∈ definedLocals (along graph earlier ++ block.operations.take pos)
  inputs : ∀ ⦃b block⦄, graph.blocks[b]? = some block → graph.Reachable b →
    ∀ op ∈ block.operations, op.isPhi → ∀ input ∈ op.inputs, ∀ id,
      input.2.localId? = some id → ∀ visited, graph.Path input.1 visited →
        id ∈ definedLocals (along graph visited)

theorem mem_along_iff :
    id ∈ definedLocals (along graph visited) ↔ ∃ c ∈ visited, DefinedIn graph id c := by
  simp only [definedLocals, along, DefinedIn, mem_filterMap, mem_flatMap, mem_reverse]
  constructor
  · rintro ⟨op, ⟨block, ⟨c, hc, hblock⟩, hop⟩, hid⟩
    exact ⟨c, hc, block, hblock, op, hop, hid⟩
  · rintro ⟨c, hc, block, hblock, op, hop, hid⟩
    exact ⟨op, ⟨block, ⟨c, hc, hblock⟩, hop⟩, hid⟩

theorem mem_definedLocals_operations :
    id ∈ definedLocals graph.operations ↔ ∃ c, DefinedIn graph id c := by
  simp only [definedLocals_operations, mem_flatMap, mem_blocks_iff, DefinedIn]
  exact ⟨fun ⟨block, ⟨c, hblock⟩, hid⟩ => ⟨c, block, hblock, hid⟩,
    fun ⟨c, block, hblock, hid⟩ => ⟨block, ⟨c, hblock⟩, hid⟩⟩

section

variable (hidx : graph.Indexed) (honce : (definedLocals graph.operations).Nodup)
include hidx honce

theorem DefinedIn.unique (hb : DefinedIn graph id b) (hc : DefinedIn graph id c) : b = c := by
  obtain ⟨first, hfirst, hid⟩ := hb
  obtain ⟨i, op, hop, hdefs⟩ := mem_definedLocals_iff.mp hid
  obtain ⟨second, hsecond, hid'⟩ := hc
  obtain ⟨j, other, hother, hdefs'⟩ := mem_definedLocals_iff.mp hid'
  have hlookup := (lookup_definitionsOf_iff honce hidx).mpr ⟨_, _, hfirst, hop, hdefs⟩
  have hlookup' := (lookup_definitionsOf_iff honce hidx).mpr ⟨_, _, hsecond, hother, hdefs'⟩
  cases hlookup.symm.trans hlookup'
  rfl

/-- A definition that every path passes lies in a dominator. -/
theorem dominates_of_along (hdefined : DefinedIn graph id c)
    (hpaths : ∀ visited, graph.Path b visited → id ∈ definedLocals (along graph visited)) :
    graph.Dominates c b := by
  intro visited hpath
  obtain ⟨other, hmem, hother⟩ := mem_along_iff.mp (hpaths visited hpath)
  exact hdefined.unique hidx honce hother ▸ hmem

/-- The definition is in front of the use exactly if all paths pass it before the use. -/
theorem ahead_iff (hreach : graph.Reachable b) {block : Block}
    (hblock : graph.blocks[b]? = some block) (hdefined : DefinedIn graph id c) (pos : Nat) :
    c = b ∧ id ∈ definedLocals (block.operations.take pos) ∨ c ≠ b ∧ graph.Dominates c b ↔
      ∀ earlier, graph.Path b (b :: earlier) →
        id ∈ definedLocals (along graph earlier ++ block.operations.take pos) := by
  simp only [definedLocals_append, mem_append, mem_along_iff]
  constructor
  · rintro (⟨-, hbefore⟩ | ⟨hne, hdom⟩) earlier hpath
    · exact .inr hbefore
    · exact .inl ⟨c, (mem_cons.mp (hdom _ hpath)).resolve_left hne, hdefined⟩
  · intro hpaths
    by_cases hcb : c = b
    · subst hcb
      -- A path that reaches the block for the first time passes no other definition.
      obtain ⟨visited, hpath⟩ := hreach
      obtain ⟨earlier, hfirst, hnot⟩ := hpath.first hpath.mem_self
      refine .inl ⟨rfl, (hpaths earlier hfirst).resolve_left ?_⟩
      rintro ⟨other, hmem, hother⟩
      exact hnot (hdefined.unique hidx honce hother ▸ hmem)
    · refine .inr ⟨hcb, fun visited hpath => ?_⟩
      obtain ⟨earlier, rfl⟩ : ∃ earlier, visited = b :: earlier := by
        cases hpath <;> exact ⟨_, rfl⟩
      rcases hpaths earlier hpath with ⟨other, hmem, hother⟩ | hbefore
      · exact .tail _ (hdefined.unique hidx honce hother ▸ hmem)
      · have hmem : id ∈ definedLocals block.operations :=
          ((take_sublist ..).filterMap _).subset hbefore
        exact absurd (hdefined.unique hidx honce ⟨block, hblock, hmem⟩) hcb

end

/-- Verification accepts exactly the graphs in static single assignment form. -/
theorem verify_accepts_ssaForm (hmirror : src.Mirrored) (hidx : src.Indexed)
    (hanalyze : analyze src = .ok graph)
    (hformed : ∀ op ∈ graph.operations, op.isPhi → op.labels.length = op.sources.length)
    (hnamed : graph.LabelsNamed) : verify graph = .ok () ↔ SsaForm graph := by
  rcases Nat.eq_zero_or_pos src.size with hempty | hsize
  · obtain ⟨idoms, -, hgraph⟩ := of_bind hanalyze
    obtain rfl : annotate src idoms = graph := Except.ok.inj hgraph
    have hblocks : (annotate src idoms).blocks = #[] := by
      simpa [Graph.size, annotate] using Or.inl hempty
    have hnone : ∀ {b : Nat} {block : Block}, (annotate src idoms).blocks[b]? ≠ some block := by
      simp [hblocks]
    have hops : (annotate src idoms).operations = [] := by simp [Graph.operations, hblocks]
    refine iff_of_true ?_ ⟨by simp [hops], by simp [hops, definedLocals], fun _ _ h => absurd h hnone,
      fun _ _ h => absurd h hnone, fun _ _ h => absurd h hnone, fun _ _ h => absurd h hnone⟩
    simp [verify, noteDefinitions, hblocks]
    rfl
  obtain ⟨result, hresult, -, hanalyzed⟩ := exists_analyze hmirror hidx hsize
  obtain rfl := Except.ok.inj (hanalyze.symm.trans hresult)
  have hinputs : ∀ op ∈ graph.operations, op.isPhi → op.inputs.length = op.labels.length := by
    intro op hop hphi
    rw [Operation.inputs, length_zip, hformed op hop hphi, Nat.min_self]
  rw [verify_eq_ok_iff hanalyzed]
  constructor
  · rintro ⟨hregisters, honce, hsupplied⟩
    refine ⟨hregisters, honce, ?_, ?_, ?_, ?_⟩
    · intro b block hblock hreach op hop src hsrc
      obtain ⟨pos, hpos⟩ := mem_iff_getElem?.mp hop
      obtain ⟨k, hk⟩ := mem_iff_getElem?.mp hsrc
      refine ((hsupplied hblock hreach hpos).2 hk).imp_right fun hlocal id hid => ?_
      obtain ⟨c, hdefined, -⟩ := hlocal id hid
      exact mem_definedLocals_operations.mpr ⟨c, hdefined⟩
    · intro b block hblock hreach op hop hphi
      obtain ⟨pos, hpos⟩ := mem_iff_getElem?.mp hop
      exact (hinputs op (mem_operations hblock hop) hphi).trans
        ((hsupplied hblock hreach hpos).1 hphi)
    · intro b block hblock pos op hop hphi src hsrc id hid earlier hpath
      obtain ⟨k, hk⟩ := mem_iff_getElem?.mp hsrc
      obtain ⟨c, hdefined, hahead⟩ := ((hsupplied hblock ⟨_, hpath⟩ hop).2 hk).2 id hid
      rw [hphi] at hahead
      exact (ahead_iff hanalyzed.indexed honce ⟨_, hpath⟩ hblock hdefined pos).mp hahead
        earlier hpath
    · intro b block hblock hreach op hop hphi input hinput id hid visited hpath
      obtain ⟨pos, hpos⟩ := mem_iff_getElem?.mp hop
      obtain ⟨k, hk⟩ := mem_iff_getElem?.mp hinput
      obtain ⟨hlabel, hsrc⟩ := getElem?_zip_eq_some.mp hk
      obtain ⟨c, hdefined, hahead⟩ := ((hsupplied hblock hreach hpos).2 hsrc).2 id hid
      rw [if_pos hphi] at hahead
      obtain ⟨label, -, hlabel', hdom⟩ := hahead
      obtain rfl := Option.mem_unique hlabel hlabel'
      exact mem_along_iff.mpr ⟨c, hdom ⟨_, hpath⟩ visited hpath, hdefined⟩
  · intro hform
    refine ⟨hform.destinations, hform.once, fun b block hblock hreach pos op hop =>
      ⟨fun hphi => ?_, fun k src hk => ?_⟩⟩
    · have hop := mem_of_getElem? hop
      exact (hinputs op (mem_operations hblock hop) hphi).symm.trans
        (hform.inputCounts hblock hreach op hop hphi)
    have hsrc := mem_of_getElem? hk
    have hop' := mem_of_getElem? hop
    refine (hform.sources hblock hreach op hop' src hsrc).imp_right fun hlocal id hid => ?_
    obtain ⟨c, hdefined⟩ := mem_definedLocals_operations.mp (hlocal id hid)
    refine ⟨c, hdefined, ?_⟩
    cases hphi : op.isPhi with
    | false =>
      exact (ahead_iff hanalyzed.indexed hform.once hreach hblock hdefined pos).mpr
        (hform.uses hblock hop hphi src hsrc id hid)
    | true =>
      have hgraph := mem_operations hblock hop'
      obtain ⟨label, hlabel⟩ : ∃ label, op.labels[k]? = some label := ⟨_, getElem?_eq_getElem
        (hformed op hgraph hphi ▸ (List.getElem?_eq_some_iff.mp hk).1)⟩
      refine ⟨label, hnamed op hgraph hphi label (mem_of_getElem? hlabel), hlabel, fun _ =>
        dominates_of_along hanalyzed.indexed hform.once hdefined ?_⟩
      exact hform.inputs hblock hreach op hop' hphi (label, src)
        (mem_of_getElem? (getElem?_zip_eq_some.mpr ⟨hlabel, hk⟩)) id hid

theorem verify_accepts_ssaForm_joined : analyze (joined 2) = .ok (analyzedJoined 2) ∧
      verify (analyzedJoined 2) = .ok () ∧ SsaForm (analyzedJoined 2) := by
  have hanalyze : analyze (joined 2) = .ok (analyzedJoined 2) := by cbv
  have hverify : verify (analyzedJoined 2) = .ok () := by decide +kernel
  exact ⟨hanalyze, hverify, (verify_accepts_ssaForm (joined_mirrored 2) (joined_indexed 2) hanalyze
    (by decide) (by decide)).mp hverify⟩

end GraphJit.SSA
