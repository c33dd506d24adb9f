import GraphJit.Proofs.Construction
import GraphJit.Proofs.ParsedGraphs

/-! # Declared locals

Reading an operand declares its local, and a local that has another type already is refused.
So every local that occurs in a graph read from text stands in the table with its type.
-/

namespace GraphJit

/-- What is declared in one table is declared in the other. -/
def LocalTable.Keeps (first second : LocalTable) : Prop :=
  ∀ ⦃id type⦄, first.type? id = some type → second.type? id = some type

namespace LocalTable

theorem Keeps.refl (table : LocalTable) : Keeps table table := fun _ _ h => h

theorem Keeps.trans {first second third : LocalTable} (hfirst : Keeps first second)
    (hsecond : Keeps second third) : Keeps first third :=
  fun _ _ h => hsecond (hfirst h)

theorem type?_reserve (table : LocalTable) (id other : Nat) :
    (table.reserve id).type? other = table.type? other := by
  unfold LocalTable.type? LocalTable.reserve
  rw [Array.getElem?_append]
  split
  next => rfl
  next hsize =>
    rw [Array.getElem?_replicate, Array.getElem?_eq_none (Nat.not_lt.mp hsize)]
    split <;> rfl

theorem of_declare {table next : LocalTable} {id : Nat} {type : ValueType}
    (hdeclare : table.declare id type = (next, true)) :
    Keeps table next ∧ next.type? id = some type := by
  unfold LocalTable.declare at hdeclare
  dsimp only at hdeclare
  split at hdeclare
  next known hknown =>
    obtain ⟨rfl, hsame⟩ := Prod.ext_iff.mp hdeclare
    obtain rfl : known = type := by simpa using hsame
    exact ⟨fun other _ h => (type?_reserve table id other).trans h, hknown⟩
  next hnone =>
    obtain ⟨rfl, -⟩ := Prod.ext_iff.mp hdeclare
    have hsize : id < (table.reserve id).types.size := by
      simp only [LocalTable.reserve, Array.size_append, Array.size_replicate]
      omega
    have hlookup (other : Nat) :
        LocalTable.type? ⟨(table.reserve id).types.setIfInBounds id (some type)⟩ other =
          if id = other then some type else table.type? other := by
      rw [← type?_reserve table id other]
      unfold LocalTable.type?
      rw [Array.getElem?_setIfInBounds, if_pos hsize]
      split <;> rfl
    refine ⟨fun other known h => ?_, by rw [hlookup, if_pos rfl]⟩
    rw [hlookup, if_neg, h]
    rintro rfl
    rw [type?_reserve, h] at hnone
    cases hnone

end LocalTable

/-- A local that an operand names stands in the table with the type of the operand. -/
def Operand.Declared (table : LocalTable) (operand : Operand) : Prop :=
  ∀ id, operand.localId? = some id → table.type? id = some operand.type

theorem Operand.Declared.mono {first second : LocalTable} {operand : Operand}
    (hdecl : operand.Declared first) (hkeeps : first.Keeps second) : operand.Declared second :=
  fun id hid => hkeeps (hdecl id hid)

/-- All locals that an operation names are declared. -/
def Operation.Declared (table : LocalTable) (op : Operation) : Prop :=
  ∀ operand ∈ op.operands, operand.Declared table

/-- All locals that occur in a graph are declared with the types of the operands. -/
def Graph.LocalsDeclared (graph : Graph) : Prop := ∀ op ∈ graph.operations, op.Declared graph.locals

namespace Parser

/-- Readers that keep declarations, and whose answers are declared. -/
def Declares {α : Type} (declared : LocalTable → α → Prop) (reader : Reader α) : Prop :=
  ∀ ⦃table next : LocalTable⦄ ⦃a : α⦄, reader table = .ok (a, next) →
    table.Keeps next ∧ declared next a

namespace Declares

variable {α β : Type} {declared : LocalTable → α → Prop} {declared' : LocalTable → β → Prop}

theorem throw (cause : ParseCause) : Declares declared (MonadExcept.throw cause) := by
  intro table next a hread
  cases hread

theorem pure {a : α} (ha : ∀ table, declared table a) : Declares declared (Pure.pure a) := by
  intro table next b hread
  cases hread
  exact ⟨.refl table, ha table⟩

theorem lift {result : Except ParseCause α} :
    Declares (fun _ _ => True) (liftM result : Reader α) := by
  intro table next a hread
  obtain ⟨b, -, hnext⟩ := of_bind hread
  cases hnext
  exact ⟨.refl table, trivial⟩

/-- What has been declared before stays so. -/
theorem bind {reader : Reader α} {next : α → Reader β} (hreader : Declares declared reader)
    (hnext : ∀ a, Declares (fun table b => declared table a → declared' table b) (next a))
    (hmono : ∀ {a first second}, LocalTable.Keeps first second → declared first a →
      declared second a) : Declares declared' (reader >>= next) := by
  intro table last b hread
  obtain ⟨⟨a, mid⟩, hmiddle, hlast⟩ := of_bind hread
  obtain ⟨hfirst, ha⟩ := hreader hmiddle
  obtain ⟨hsecond, hb⟩ := hnext a hlast
  exact ⟨hfirst.trans hsecond, hb (hmono hsecond ha)⟩

theorem mapM {read : β → Reader α} (hread : ∀ b, Declares declared (read b))
    (hmono : ∀ {a first second}, LocalTable.Keeps first second → declared first a →
      declared second a) (items : List β) :
    Declares (fun table answers => ∀ a ∈ answers, declared table a) (items.mapM read) := by
  induction items with
  | nil => exact pure (by simp)
  | cons b rest ih =>
    rw [List.mapM_cons]
    refine (hread b).bind (fun a => ?_) hmono
    refine ih.bind (fun answers => ?_) fun hkeeps h a ha => hmono hkeeps (h a ha)
    exact pure fun table hanswers ha => List.forall_mem_cons.mpr ⟨ha, hanswers⟩

end Declares

theorem declares_declare (id : Nat) (type : ValueType) (refuse : Reader Operand) (cause : ParseCause) :
    Declares (fun table operand => operand.Declared table) (do
      let table ← get
      set (table.declare id type).1
      if (table.declare id type).2 then return .localVar id type
      throw cause
      refuse) := by
  intro table next operand hread
  change (if (table.declare id type).2 = true then (pure (.localVar id type) : Reader Operand)
    else throw cause >>= fun _ => refuse) (table.declare id type).1 = .ok (operand, next) at hread
  by_cases hagrees : (table.declare id type).2 = true
  · rw [if_pos hagrees] at hread
    cases hread
    obtain ⟨hkeeps, htype⟩ := LocalTable.of_declare (Prod.ext rfl hagrees)
    refine ⟨hkeeps, fun other hother => ?_⟩
    cases hother
    exact htype
  · rw [if_neg hagrees] at hread
    cases hread

theorem declared_of_localId?_eq_none {operand : Operand} (hnone : operand.localId? = none)
    (table : LocalTable) : operand.Declared table := by
  intro id hid
  rw [hnone] at hid
  cases hid

theorem declares_operand (text : List Char) :
    Declares (fun table operand => operand.Declared table) (operand text) := by
  unfold operand
  rcases Text.cutLast? ':' text with _ | ⟨head, typeName⟩
  · exact .throw _
  dsimp only
  cases ValueType.ofName? (String.ofList typeName) with
  | none => exact .throw _
  | some type =>
    dsimp only
    cases numbered? 'r' head with
    | some index => exact .pure (declared_of_localId?_eq_none rfl)
    | none =>
      cases numbered? 'v' head with
      | some index => exact .pure (declared_of_localId?_eq_none rfl)
      | none =>
        cases numbered? 'l' head with
        | some id => exact declares_declare id type _ _
        | none =>
          dsimp only
          cases constant? head type with
          | some bits => exact .pure (declared_of_localId?_eq_none rfl)
          | none => exact .throw _

theorem declares_input (text : List Char) :
    Declares (fun table input => input.2.Declared table) (input text) := by
  unfold input
  rcases Text.cut? (· == '@') text with _ | ⟨value, label⟩
  · exact .throw _
  refine Declares.lift.bind (fun block => ?_) fun _ h => h
  refine (declares_operand _).bind (fun operand => ?_) fun hkeeps h => h.mono hkeeps
  exact .pure fun table hdecl _ => hdecl

theorem declares_destination (text : List Char) :
    Declares (fun table result => ∀ operand ∈ result.1, operand.Declared table)
      (destination text) := by
  unfold destination
  rcases Text.cut? (· == '=') text with _ | ⟨target, rest⟩
  · exact .pure (by simp)
  refine (declares_operand _).bind (fun operand => ?_) fun hkeeps h => h.mono hkeeps
  exact .pure (by simp)

theorem declared_intro {table : LocalTable} {op : Operation}
    (hdest : ∀ operand ∈ op.destination, operand.Declared table)
    (hsrcs : ∀ operand ∈ op.sources, operand.Declared table) : op.Declared table :=
  List.forall_mem_append.mpr ⟨fun operand h => hdest operand (Option.mem_toList.mp h), hsrcs⟩

theorem declares_operation (text : List Char) : Declares Operation.Declared (operation text) := by
  unfold operation
  refine (declares_destination text).bind (fun result => ?_)
    fun hkeeps h operand hopnd => (h operand hopnd).mono hkeeps
  refine Declares.lift.bind (fun instr => ?_) fun _ h => h
  split
  · exact .pure fun table _ hdest => declared_intro hdest (by simp)
  · rcases result with ⟨_ | target, rest⟩
    · exact .throw _
    refine (Declares.mapM declares_input (fun hkeeps h => h.mono hkeeps) _).bind (fun inputs => ?_)
      fun hkeeps h input hinput => (h input hinput).mono hkeeps
    refine .pure fun table hinputs _ hdest => declared_intro hdest fun operand hopnd => ?_
    obtain ⟨input, hinput, rfl⟩ := List.mem_map.mp hopnd
    exact hinputs input hinput
  · refine (Declares.mapM declares_operand (fun hkeeps h => h.mono hkeeps) _).bind
      (fun sources => ?_) fun hkeeps h operand hopnd => (h operand hopnd).mono hkeeps
    exact .pure fun table hsrcs _ hdest => declared_intro hdest hsrcs

/-! ## Reading lines -/

variable {draft next : Draft} {text : List Char} {line : Nat}

theorem localsDeclared_push (hpush : draft.push text = .ok next)
    (hdraft : draft.graph.LocalsDeclared) : next.graph.LocalsDeclared := by
  unfold Draft.push at hpush
  split at hpush
  next => cases hpush
  next =>
    obtain ⟨⟨op, locals⟩, hread, hnext⟩ := of_bind hpush
    cases hnext
    obtain ⟨hkeeps, hdecl⟩ := declares_operation text hread
    have hold : ∀ op ∈ draft.graph.operations, op.Declared locals :=
      fun op hop operand hopnd => (hdraft op hop operand hopnd).mono hkeeps
    intro new hnew
    obtain ⟨block, hblock, hmem⟩ := List.mem_flatMap.mp hnew
    obtain ⟨b, hb⟩ := Graph.mem_blocks_iff.mp hblock
    rw [Array.getElem?_modify] at hb
    split at hb
    next =>
      obtain ⟨old, hfound, rfl⟩ := Option.map_eq_some_iff.mp hb
      rcases List.mem_append.mp hmem with hmem | hmem
      · exact hold new (SSA.mem_operations hfound hmem)
      · rw [List.mem_singleton.mp hmem]
        exact hdecl
    next => exact hold new (SSA.mem_operations hb hmem)

theorem localsDeclared_openBlock (hopen : draft.openBlock line text = .ok next)
    (hdraft : draft.graph.LocalsDeclared) : next.graph.LocalsDeclared := by
  obtain ⟨⟨b, successors⟩, -, hrest⟩ := of_bind hopen
  dsimp only at hrest
  split at hrest
  next => cases hrest
  next =>
    cases hrest
    have hsame : draft.graph.addBlock.operations = draft.graph.operations := by
      simp [Graph.operations, Graph.addBlock]
    intro op hop
    rw [hsame] at hop
    exact hdraft op hop

theorem localsDeclared_readLine {raw : List Char} (hread : draft.readLine line raw = .ok next)
    (hdraft : draft.graph.LocalsDeclared) : next.graph.LocalsDeclared := by
  unfold Draft.readLine at hread
  dsimp only at hread
  split at hread
  next =>
    cases hread
    exact hdraft
  next =>
    split at hread
    next => exact localsDeclared_openBlock hread hdraft
    next => exact localsDeclared_push hread hdraft

theorem localsDeclared_modify {graph result : Graph} {b : Nat} {change : Block → Block}
    (hmodify : graph.modify b change = .ok result)
    (hchange : ∀ block, (change block).operations = block.operations)
    (hgraph : graph.LocalsDeclared) : result.LocalsDeclared := by
  obtain ⟨-, rfl⟩ := Graph.of_modify_eq_ok hmodify
  intro op hop
  obtain ⟨block, hblock, hmem⟩ := List.mem_flatMap.mp hop
  obtain ⟨q, hq⟩ := Graph.mem_blocks_iff.mp hblock
  rw [Array.getElem?_modify] at hq
  split at hq
  next =>
    obtain ⟨old, hold, rfl⟩ := Option.map_eq_some_iff.mp hq
    rw [hchange] at hmem
    exact hgraph op (SSA.mem_operations hold hmem)
  next => exact hgraph op (SSA.mem_operations hq hmem)

end Parser

/-- The locals that occur in a graph read from text are declared with the types of the operands. -/
theorem localsDeclared_of_parse {text : String} {graph : Graph}
    (hparse : Graph.parse text = .ok graph) : graph.LocalsDeclared := by
  obtain ⟨draft, hdraft, hedges⟩ := of_bind hparse
  have hdecl : draft.graph.LocalsDeclared :=
    Parser.readLines_keeps (fun draft => draft.graph.LocalsDeclared)
      Parser.localsDeclared_readLine hdraft (by simp [Graph.LocalsDeclared, Graph.operations])
  refine Parser.addEdges_keeps Graph.LocalsDeclared ?_ hedges hdecl
  intro graph next src target hedge hgraph
  obtain ⟨mid, hmiddle, hnext⟩ := of_bind hedge
  exact Parser.localsDeclared_modify hnext (fun _ => rfl)
    (Parser.localsDeclared_modify hmiddle (fun _ => rfl) hgraph)

end GraphJit
