import GraphJit.Proofs.GreedyHomes
import GraphJit.Proofs.InternalFailures
import GraphJit.Proofs.UnreachableCode

/-! # Typed locals

A local comes from a declaration in the text, from a register, or from a phi that is
removed. The main statement: when registers are allocated, every local that occurs has
a type in the table, of the class of each access and at least as wide. So the allocation
succeeds, every access finds a home, and a home in a register is of the right bank.
-/

namespace GraphJit

open SSA Dominance Validate Rebasing Allocation List

/-- The local of an operand stands in the table, with room for the access. -/
def Operand.Typed (table : LocalTable) (opnd : Operand) : Prop :=
  ∀ id, opnd.localId? = some id →
    ∃ declared, table.type? id = some declared ∧ declared.Covers opnd.type

/-- All locals that occur in a graph have room for their accesses. -/
def Graph.LocalsTyped (graph : Graph) : Prop :=
  ∀ op ∈ graph.operations, ∀ opnd ∈ op.operands, opnd.Typed graph.locals

variable {graph result : Graph} {vars : List GuestVariable} {table final : LocalTable}
  {opnd : Operand} {type : ValueType} {id : Nat}

/-! ## Growing tables -/

namespace LocalTable

theorem Extends.type? (hext : table.Extends final) (htype : table.type? id = some type) :
    final.type? id = some type := by
  obtain ⟨more, hmore⟩ := hext
  have hid : id < table.types.size := lt_count_of_type? htype
  rwa [LocalTable.type?, hmore, Array.getElem?_append_left hid]

/-- A new local is found as long as its number did not wrap around. -/
theorem type?_fresh (hext : (table.fresh type).2.Extends final)
    (hbound : final.count ≤ twoPow 32) : final.type? (table.fresh type).1 = some type := by
  obtain ⟨more, hmore⟩ := hext
  change final.types = table.types.push (some type) ++ more at hmore
  have hlt : table.count < final.count := by
    rw [LocalTable.count, LocalTable.count, hmore, Array.size_append, Array.size_push]
    omega
  have hid : (table.fresh type).1 = table.count := Nat.mod_eq_of_lt (hlt.trans_le hbound)
  rw [hid, LocalTable.type?, hmore, LocalTable.count,
    Array.getElem?_append_left (by simp), Array.getElem?_push_size]
  rfl

end LocalTable

theorem Operand.Typed.mono (htyped : opnd.Typed table) (hext : table.Extends final) :
    opnd.Typed final := by
  intro id hid
  obtain ⟨declared, hdeclared, hcovers⟩ := htyped id hid
  exact ⟨declared, hext.type? hdeclared, hcovers⟩

theorem typed_of_localId?_eq_none (hnone : opnd.localId? = none) : opnd.Typed table := by
  intro id hid
  rw [hnone] at hid
  cases hid

/-! ## Locals for registers -/

/-- Locals have room for their accesses, and the variable of a register for accesses of the
register. A local stands for a register if it has the type of the variable. -/
def typedOperand (hvars : ∀ var ∈ vars, GuestVariable.find? vars var.register = some var)
    (hbound : final.count ≤ twoPow 32) : OperandRule vars final where
  fits opnd := opnd.Typed final ∧ ∀ reg type, opnd = .register reg type →
    ∀ var, GuestVariable.find? vars reg = some var → var.type.Covers type
  stands reg id := ∀ var, GuestVariable.find? vars reg = some var →
    final.type? id = some var.type
  constant _ _ := ⟨typed_of_localId?_eq_none rfl, by rintro _ _ ⟨⟩⟩
  register var hvar := by
    refine ⟨typed_of_localId?_eq_none rfl, ?_⟩
    rintro reg type ⟨⟩ other hother
    rw [hvars var hvar] at hother
    cases hother
    exact .refl _
  named hfind hfits hstands := by
    refine ⟨fun id hid => ?_, by rintro _ _ ⟨⟩⟩
    cases hid
    exact ⟨_, hstands _ hfind, hfits.2 _ _ rfl _ hfind⟩
  fresh hfind hext := by
    intro other hother
    rw [hfind] at hother
    cases hother
    exact LocalTable.type?_fresh hext hbound

theorem localsTyped_withoutRegisters {opts : Options} (htyped : graph.LocalsTyped)
    (hrename : graph.withoutRegisters opts = .ok result)
    (hbound : result.locals.count ≤ twoPow 32) : result.LocalsTyped := by
  obtain ⟨vars, hcollect, hpass⟩ : ∃ vars, GuestVariable.collect graph = .ok vars ∧
      ∀ rule : OperandRule vars result.locals, graph.locals.Extends result.locals ∧
        (result.locals.Extends result.locals → rule.Obeyed graph → rule.Rewrites graph result) := by
    unfold Graph.withoutRegisters at hrename
    split at hrename
    · obtain ⟨vars, hcollect, -⟩ := of_bind hrename
      exact ⟨vars, of_liftM_eq_ok hcollect, fun rule =>
        construct_rewrites rule (of_liftM_eq_ok hcollect) hrename⟩
    · have hrename := of_liftM_eq_ok hrename
      obtain ⟨vars, hcollect, -⟩ := of_bind hrename
      exact ⟨vars, hcollect, fun rule => renameRegisters_rewrites rule hcollect hrename⟩
  have hacc := GuestVariable.collect_eq_ok hcollect
  obtain ⟨hext, hrewr⟩ := hpass (typedOperand (fun _ => GuestVariable.find?_eq_some hacc) hbound)
  have hobeyed := (hrewr (.refl _) fun b block hblock op hop opnd hopnd => by
    have hmem := mem_operations hblock hop
    refine ⟨(htyped op hmem opnd hopnd).mono hext, ?_⟩
    rintro reg type rfl var hvar
    obtain ⟨found, hfound, rfl, hcovers⟩ :=
      hacc.covered (mem_flatMap.mpr ⟨op, hmem, hopnd⟩)
    rw [GuestVariable.find?_eq_some hacc hfound] at hvar
    cases hvar
    exact hcovers).obeyed
  intro op hop opnd hopnd
  obtain ⟨b, block, hblock, hmem⟩ := mem_operations_iff.mp hop
  exact (hobeyed hblock op hmem opnd hopnd).1

/-! ## Temporaries of phis -/

/-- Graphs whose locals have room as long as their numbers suffice. -/
structure Graph.TypedWithin (graph : Graph) : Prop where
  mirrored : graph.Mirrored
  typed : graph.locals.count ≤ twoPow 32 → graph.LocalsTyped

theorem stepKept_typedWithin : StepKept Graph.TypedWithin where
  mirrored := Graph.TypedWithin.mirrored
  split hgraph hsplit hedge _ := by
    refine ⟨hsplit.mirrored hgraph.mirrored hedge, fun hbound op hop opnd hopnd => ?_⟩
    rw [hsplit.locals] at hbound ⊢
    obtain ⟨b, block, hblock, hmem⟩ := mem_operations_iff.mp hop
    rcases hsplit.cases hblock with ⟨old, hold, rfl⟩ | ⟨-, rfl⟩
    · obtain ⟨labels, hops⟩ := exists_labels _ _ _ b old
      rw [hops] at hmem
      obtain ⟨before, hbefore, rfl⟩ := mem_map.mp hmem
      exact hgraph.typed hbound before (mem_operations hold hbefore) opnd hopnd
    · rw [mem_singleton.mp hmem] at hopnd
      cases hopnd
  lower {graph result phi dest b pos} hgraph hlower hat hb := by
    refine ⟨hlower.sameEdges.mirrored hgraph.mirrored, fun hbound op hop opnd hopnd => ?_⟩
    have hcount := hlower.count
    have hold : graph.LocalsTyped := hgraph.typed (by omega)
    have hext : graph.locals.Extends result.locals :=
      hlower.locals ▸ graph.locals.extends_fresh dest.type
    obtain ⟨home, hhome⟩ := Graph.exists_block hb
    have hphi := mem_operations hhome (mem_of_getElem? (hat.place hhome))
    have htemporary : (Operand.localVar (graph.locals.count % twoPow 32)
        dest.type).Typed result.locals := by
      intro id hid
      cases hid
      exact ⟨_, LocalTable.type?_fresh (hlower.locals ▸ .refl _) hbound, .refl _⟩
    obtain ⟨q, block, hblock, hmem⟩ := mem_operations_iff.mp hop
    obtain ⟨old, hblock', rfl⟩ := hlower.cases hblock
    rcases mem_loweredBlock hmem with hmem | rfl | ⟨src, hsrc, rfl⟩
    · exact (hold op (mem_operations hblock' hmem) opnd hopnd).mono hext
    · rcases mem_cons.mp hopnd with rfl | hopnd
      · have hmem := OperandRule.mem_operands_iff.mpr (.inl hat.destination)
        exact (hold phi hphi opnd hmem).mono hext
      · exact mem_singleton.mp hopnd ▸ htemporary
    · rcases mem_cons.mp hopnd with rfl | hopnd
      · exact htemporary
      · rw [mem_singleton.mp hopnd]
        have hmem := OperandRule.mem_operands_iff.mpr (.inr hsrc)
        exact (hold phi hphi src hmem).mono hext

/-! ## The passes before allocation -/

section Passes

variable {text : String} {lowered : Graph} {opts : Options} {sig : Signature}
  (hparse : Graph.parse text = .ok graph)
include hparse

theorem localsTyped_analyzed {analyzed : Graph}
    (hanalyzed : graph.analyzed sig = .ok analyzed) : analyzed.LocalsTyped := by
  have hlinked := linked_of_parse hparse
  obtain ⟨pruned, hpre, hsame, -⟩ := of_analyzed hlinked.mirrored hlinked.indexed hanalyzed
  obtain ⟨hvalid, removed, hremove⟩ := of_prepare hpre
  have hrem := remains_of_parse hparse hvalid hremove
  intro op hop opnd hopnd id hid
  obtain ⟨b, block, hblock, hmem⟩ := mem_operations_iff.mp hop
  obtain ⟨old, hold, parent, frontier, rfl⟩ := hsame.cases hblock
  rw [hsame.locals]
  exact ⟨_, hrem.declared op (mem_operations hold hmem) opnd hopnd id hid, .refl _⟩

theorem localsTyped_lowered (hfew : graph.FewLocals opts sig)
    (hlowered : graph.lowered opts sig = .ok lowered) : lowered.LocalsTyped := by
  have hlinked := linked_of_parse hparse
  have hbound : 2 ^ 28 ≤ twoPow 32 := by decide
  have hcount := hfew.lowered lowered hlowered
  obtain ⟨analyzed, hanalyzed, hrest⟩ := of_bind hlowered
  obtain ⟨-, -, -, hprep⟩ := of_analyzed hlinked.mirrored hlinked.indexed hanalyzed
  obtain ⟨renamed, hlocals, hrest⟩ := of_bind hrest
  obtain ⟨⟨result, splits⟩, hdecon, hresult⟩ := of_bind hrest
  cases hresult
  have hnamed := withoutRegisters_of_intoLocals hlocals
  have htyped := localsTyped_withoutRegisters (localsTyped_analyzed hparse hanalyzed) hnamed
    ((hfew.renamed analyzed renamed hanalyzed hnamed).le.trans hbound)
  have hmirror := (sameEdges_intoLocals hlocals).mirrored hprep.analyzed.mirrored
  obtain ⟨hkept, -, -⟩ := keeps_lowerBlocks stepKept_typedWithin ⟨hmirror, fun _ => htyped⟩
    le_rfl (liftM_eq_ok hdecon)
  exact hkept.typed (hcount.le.trans hbound)

/-- When registers are allocated, the table has room for every access in its class, the
allocation succeeds with homes of the right bank, and no access lacks a home. -/
theorem allocation_places_typed_locals (hfew : graph.FewLocals opts sig)
    (hlowered : graph.lowered opts sig = .ok lowered) (hfit : UsesFit lowered) :
    (∀ op ∈ lowered.operations, ∀ opnd ∈ op.operands, ∀ id, opnd.localId? = some id →
      ∃ declared, lowered.locals.type? id = some declared ∧
        declared.isInteger = opnd.type.isInteger ∧ opnd.type.size ≤ declared.size) ∧
      ∃ alloc, greedy none opts.convention lowered = .ok alloc ∧
        (graph.compile opts sig).outcome =
          lowered.generate opts alloc sig.arguments ∧
        (∀ id, lowered.generate opts alloc sig.arguments ≠
          .error (.error (.allocation (.unplaced id)))) ∧
        ∀ op ∈ lowered.operations, ∀ opnd ∈ op.operands, ∀ id, opnd.localId? = some id →
          ∃ home, alloc.location? id = some home ∧
            ∀ reg, home = .register reg → reg.bank = bankOf opnd.type := by
  have htyped := localsTyped_lowered hparse hfew hlowered
  obtain ⟨hlinked, -⟩ := of_lowered (linked_of_parse hparse) hlowered
  have hdeclared : lowered.LocalsInTable := fun op hop opnd hopnd id hid =>
    (htyped op hop opnd hopnd id hid).imp fun _ => And.left
  obtain ⟨alloc, hgreedy⟩ := exists_greedy hdeclared hfit none opts.convention
  have hhousing := housing_of_greedy hgreedy
  have hplaced : ∀ op ∈ lowered.operations, ∀ opnd ∈ op.operands, ∀ id,
      opnd.localId? = some id → ∃ home, alloc.location? id = some home := by
    intro op hop opnd hopnd id hid
    exact Option.isSome_iff_exists.mp
      ((placed_iff hdeclared hgreedy).mpr ⟨op, hop, opnd, hopnd, hid⟩)
  refine ⟨htyped, alloc, hgreedy, ?_, fun id hunplaced => ?_, ?_⟩
  · rw [outcome_compile, hlowered]
    change greedy none opts.convention lowered >>= _ = _
    rw [hgreedy]
    rfl
  · have hsane := sane_generate (fun _ => False) hlinked.indexed
      (fun _ _ => hlinked.mirrored.lt_size_of_successor) opts sig.arguments
      fun op hop opnd hopnd id hid hnone => by
        obtain ⟨home, hhome⟩ := hplaced op hop opnd hopnd id hid
        rw [hhome] at hnone
        cases hnone
    exact (hsane _ hunplaced).2.2 id rfl
  · intro op hop opnd hopnd id hid
    obtain ⟨home, hhome⟩ := hplaced op hop opnd hopnd id hid
    refine ⟨home, hhome, ?_⟩
    rintro reg rfl
    obtain ⟨type, htype, hbank, -⟩ := hhousing.inRegister hhome
    obtain ⟨declared, hdeclared, hclass, -⟩ := htyped op hop opnd hopnd id hid
    obtain rfl := Option.some.inj (hdeclared.symm.trans htype)
    rw [hbank, bankOf, bankOf, hclass]

end Passes

theorem allocation_places_typed_locals_loop :
    Graph.parse loopText = .ok loopGraph ∧ loopGraph.FewLocals {} ⟨[.i64], some .i64⟩ ∧
      ∃ lowered alloc, loopGraph.lowered {} ⟨[.i64], some .i64⟩ = .ok lowered ∧
        lowered.locals.count = 6 ∧ UsesFit lowered ∧ greedy none .sysv lowered = .ok alloc := by
  have hanalyzed : loopGraph.analyzed ⟨[.i64], some .i64⟩ = .ok analyzedLoop := by cbv
  have hcount : ((analyzedLoop.intoLocals {}).outcome >>= Graph.withoutPhis).map
      (·.locals.count) = .ok 6 := by decide +kernel
  have hfew : loopGraph.FewLocals {} ⟨[.i64], some .i64⟩ :=
    @fewLocals_of_counts _ _ _ _ 4 6 hanalyzed (by decide +kernel) hcount (by decide)
  have hfits : ((analyzedLoop.intoLocals {}).outcome >>= Graph.withoutPhis).map
      (fun lowered => decide (UsesFit lowered)) = .ok true := by decide +kernel
  rw [← lowered_eq hanalyzed] at hcount hfits
  obtain ⟨lowered, hlowered, hcount⟩ := map_eq_ok.mp hcount
  rw [hlowered] at hfits
  have hfit : UsesFit lowered := of_decide_eq_true (Except.ok.inj hfits)
  obtain ⟨-, alloc, hgreedy, -⟩ :=
    allocation_places_typed_locals parse_loopText hfew hlowered hfit
  exact ⟨parse_loopText, hfew, lowered, alloc, hlowered, hcount, hfit, hgreedy⟩

end GraphJit
