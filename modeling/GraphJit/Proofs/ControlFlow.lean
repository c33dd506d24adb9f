import GraphJit.Proofs.BlockLayout

/-! # Control follows the graph

The code of a function is the code of its blocks, one after the other. Control
that leaves the operations of a block returns, or goes to the first byte of the
successor that the terminator chooses. Falling through is the only way to pass from
a block to the following one without a jump, and happens only if that block is
the successor. So a run never leaves the code, and visits blocks along a path of the
graph.
-/

namespace GraphJit

open X64 Code Lowering List

/-- Control may go from one block to another. -/
def Graph.Exit (graph : Graph) (b s : Nat) : Prop :=
  ∃ block, graph.blocks[b]? = some block ∧ s ∈ block.exits

theorem Block.mem_successors_of_exits {block : Block} {s : Nat} (hs : s ∈ block.exits) :
    s ∈ block.successors := by
  have hnext (h : s ∈ block.next?.toList) : s ∈ block.successors :=
    mem_of_getElem? (Option.mem_toList.mp h)
  have htaken (h : s ∈ block.taken?.toList) : s ∈ block.successors :=
    mem_of_getElem? (Option.mem_toList.mp h)
  rw [exits] at hs
  split at hs
  · exact hnext hs
  · split at hs
    · cases hs
    · exact (mem_append.mp hs).elim htaken hnext
    · exact hnext hs

namespace Code

/-! ## Items of blocks -/

section Layout

variable (layout : List (List Item))

/-- The first item of a block. -/
def firstOf (b : Nat) : Nat := (layout.take b).flatten.length

/-- The position of the first byte of a block. -/
def entryOf (avx : Bool) (b : Nat) : Nat := startOf avx layout.flatten (firstOf layout b)

variable {layout} {segment : List Item} {b : Nat}

theorem drop_firstOf (layout : List (List Item)) (b : Nat) :
    layout.flatten.drop (firstOf layout b) = (layout.drop b).flatten := by
  have hsplit : layout.flatten = (layout.take b).flatten ++ (layout.drop b).flatten := by
    rw [← flatten_append, take_append_drop]
  rw [hsplit, firstOf, drop_left]

theorem drop_firstOf_eq (hsegment : layout[b]? = some segment) :
    layout.flatten.drop (firstOf layout b) = segment ++ (layout.drop (b + 1)).flatten := by
  rw [drop_firstOf, drop_eq_getElem?_toList_append, hsegment]
  rfl

theorem firstOf_succ (hsegment : layout[b]? = some segment) :
    firstOf layout (b + 1) = firstOf layout b + segment.length := by
  rw [firstOf, firstOf, take_add_one, hsegment, flatten_append, length_append]
  simp

theorem firstOf_length (layout : List (List Item)) :
    firstOf layout layout.length = layout.flatten.length := by
  rw [firstOf, take_length]

theorem firstOf_le_length (layout : List (List Item)) (b : Nat) :
    firstOf layout b ≤ layout.flatten.length := by
  conv_rhs => rw [← take_append_drop b layout, flatten_append, length_append]
  exact Nat.le_add_right ..

theorem getElem?_firstOf (hsegment : layout[b]? = some segment) {i : Nat}
    (hi : i < segment.length) : layout.flatten[firstOf layout b + i]? = segment[i]? := by
  rw [← getElem?_drop, drop_firstOf_eq hsegment, getElem?_append_left hi]

theorem firstOf_mono {c : Nat} (hle : b ≤ c) : firstOf layout b ≤ firstOf layout c := by
  obtain ⟨m, rfl⟩ := Nat.exists_eq_add_of_le hle
  rw [firstOf, firstOf, take_add, flatten_append, length_append]
  exact Nat.le_add_right ..

theorem entryOf_mono (avx : Bool) {c : Nat} (hle : b ≤ c) :
    entryOf layout avx b ≤ entryOf layout avx c :=
  startOf_mono avx layout.flatten (firstOf_mono hle)

theorem entryOf_zero (layout : List (List Item)) (avx : Bool) : entryOf layout avx 0 = 0 := rfl

end Layout

/-- Bytes up to a point, cut at the points before it. -/
theorem take_eq_flatMap (code : List UInt8) {point : Nat → Nat} (hzero : point 0 = 0)
    (hmono : ∀ b, point b ≤ point (b + 1)) (n : Nat) : code.take (point n)
      = (List.range n).flatMap fun b => bytesAt code (point b) (point (b + 1) - point b) := by
  induction n with
  | zero => rw [hzero]; rfl
  | succ n ih =>
    have hstep : point (n + 1) = point n + (point (n + 1) - point n) := by
      have := hmono n
      omega
    rw [range_succ, flatMap_append, ← ih, hstep, take_add]
    simp [bytesAt]

/-! ## Confinement -/

/-- A layout of the blocks of a graph. -/
structure Lays (graph : Graph) (layout : List (List Item)) : Prop where
  length : layout.length = graph.size
  indexed : ∀ (b : Nat) block, graph.blocks[b]? = some block → block.index = b
  successors : ∀ (b : Nat) block, graph.blocks[b]? = some block →
    ∀ s ∈ block.successors, s < graph.size
  segment : ∀ (b : Nat) block, graph.blocks[b]? = some block →
    ∃ segment, layout[b]? = some segment ∧ Segment block segment

/-- A position where one of the items from `low` to `high` starts, and has bytes. -/
def Within (avx : Bool) (items : List Item) (low high pos : Nat) : Prop :=
  ∃ (k : Nat) (item : Item), low ≤ k ∧ k < high ∧ items[k]? = some item ∧
    item.emitted avx ≠ [] ∧ pos = startOf avx items k

section Within

variable {avx : Bool} {items : List Item} {low high pos : Nat}

theorem Within.bounds (h : Within avx items low high pos) :
    startOf avx items low ≤ pos ∧ pos < startOf avx items high := by
  obtain ⟨k, item, hlow, hhigh, hitem, hbytes, rfl⟩ := h
  have hpos := length_pos_iff.mpr hbytes
  have hstop := stop_le_startOf avx hitem hhigh
  exact ⟨startOf_mono avx items hlow, by omega⟩

/-- Items without bytes are followed by one that has some, or by none. -/
theorem within_or_eq {k : Nat} (hlow : low ≤ k) (hhigh : k ≤ high) (hlength : high ≤ items.length) :
    Within avx items low high (startOf avx items k) ∨
      startOf avx items k = startOf avx items high := by
  induction hleft : high - k generalizing k with
  | zero =>
    rw [show k = high by omega]
    exact .inr rfl
  | succ left ih =>
    obtain ⟨item, hitem⟩ : ∃ item, items[k]? = some item := ⟨_, getElem?_eq_getElem (by omega)⟩
    by_cases hempty : item.emitted avx = []
    · have hsame : startOf avx items (k + 1) = startOf avx items k := by
        rw [startOf_succ avx hitem, hempty, length_nil, Nat.add_zero]
      rw [← hsame]
      exact ih (by omega) (by omega) (by omega)
    · exact .inl ⟨k, item, hlow, by omega, hitem, hempty, rfl⟩

end Within

namespace Lays

variable {graph : Graph} {layout : List (List Item)} {avx : Bool} {code : List UInt8} {host : Host}
  {b k j : Nat} {block : Block} {cpu next : Cpu} (hlays : Lays graph layout)

section Items

include hlays

theorem lt_size_of_exits (hblock : graph.blocks[b]? = some block) {s : Nat}
    (hs : s ∈ block.exits) : s < graph.size :=
  hlays.successors b block hblock s (Block.mem_successors_of_exits hs)

theorem getElem?_entry (hb : b < graph.size) :
    layout.flatten[firstOf layout b]? = some (.enter b) := by
  obtain ⟨block, hblock⟩ : ∃ block, graph.blocks[b]? = some block :=
    ⟨_, Array.getElem?_eq_getElem hb⟩
  obtain ⟨segment, hsegment, hshape⟩ := hlays.segment b block hblock
  obtain ⟨rest, rfl⟩ := hshape.enters
  rw [hlays.indexed b block hblock] at hsegment
  exact getElem?_firstOf hsegment (Nat.succ_pos _)

section

variable (hblock : graph.blocks[b]? = some block) (hlow : firstOf layout b ≤ k)
  (hhigh : k < firstOf layout (b + 1))
include hblock hlow hhigh

theorem exists_item : ∃ item segment i, layout[b]? = some segment ∧ Segment block segment ∧
      k = firstOf layout b + i ∧ segment[i]? = some item ∧ layout.flatten[k]? = some item := by
  obtain ⟨segment, hsegment, hshape⟩ := hlays.segment b block hblock
  obtain ⟨i, rfl⟩ := Nat.exists_eq_add_of_le hlow
  rw [firstOf_succ hsegment] at hhigh
  have hi : i < segment.length := by omega
  have hitem := getElem?_eq_getElem hi
  have hfound := (getElem?_firstOf hsegment hi).trans hitem
  exact ⟨segment[i], segment, i, hsegment, hshape, rfl, hitem, hfound⟩

/-- Control gets past the end of a block only if the following block is chosen. -/
theorem next_inside {item : Item} (hitem : layout.flatten[k]? = some item)
    (hret : item ≠ .instr .ret) (hjump : ∀ s, item ≠ .jump none s) :
    (firstOf layout b ≤ k + 1 ∧ k + 1 < firstOf layout (b + 1)) ∨
      ∃ s ∈ block.exits, k + 1 = firstOf layout s := by
  obtain ⟨found, segment, i, hsegment, hshape, rfl, hi, hfound⟩ :=
    hlays.exists_item hblock hlow hhigh
  rw [hitem] at hfound
  cases hfound
  by_cases hlast : firstOf layout b + i + 1 < firstOf layout (b + 1)
  · exact .inl ⟨by omega, hlast⟩
  · have hend := firstOf_succ hsegment
    have hgetLast : segment.getLast? = some item := by
      rw [getLast?_eq_getElem?, show segment.length - 1 = i by omega, hi]
    rcases hshape.ends with hfalls | hrets | ⟨s, hjumps⟩
    · rw [hlays.indexed b block hblock] at hfalls
      exact .inr ⟨b + 1, hfalls, by omega⟩
    · rw [hgetLast] at hrets
      exact absurd (Option.some.inj hrets) hret
    · rw [hgetLast] at hjumps
      exact absurd (Option.some.inj hjumps) (hjump s)

end

/-- Control stays inside a block, or goes to the first item of a chosen successor. -/
theorem inside_of_passes (hcode : Assembled avx layout.flatten code)
    (hblock : graph.blocks[b]? = some block) (hlow : firstOf layout b ≤ k)
    (hhigh : k < firstOf layout (b + 1)) (hpasses : Passes host layout.flatten k cpu j next) :
    (firstOf layout b ≤ j ∧ j < firstOf layout (b + 1)) ∨ ∃ s ∈ block.exits, j = firstOf layout s := by
  have hnext {item : Item} (hitem : layout.flatten[k]? = some item) :=
    hlays.next_inside hblock hlow hhigh hitem
  obtain ⟨item, segment, i, hsegment, hshape, rfl, hi, hfound⟩ :=
    hlays.exists_item hblock hlow hhigh
  have hfits := hshape.fits item (mem_of_getElem? hi)
  cases hpasses with
  | enter hitem | close hitem | into hitem =>
    exact hnext hitem Item.noConfusion fun _ => Item.noConfusion
  | @instr instr _ hitem hexec =>
    apply hnext hitem _ fun _ => Item.noConfusion
    rintro ⟨⟩
    cases hexec
  | @stay cond target hitem htaken =>
    apply hnext hitem Item.noConfusion
    rintro s ⟨⟩
    cases htaken
  | @jump cond target _ hitem htaken hentry =>
    rw [hitem] at hfound
    cases hfound
    have htarget := hlays.lt_size_of_exits hblock hfits
    exact .inr ⟨target, hfits, hcode.once _ _ _ hentry (hlays.getElem?_entry htarget)⟩
  | skip hitem hholds hclosed =>
    rw [hitem] at hfound
    cases hfound
    -- the first closing behind the jump is not behind the one in its segment
    obtain ⟨m, him, hm⟩ := hshape.closes i _ hi
    have hend := firstOf_succ hsegment
    have hlt := lt_length hm
    have hclose := (getElem?_firstOf hsegment hlt).trans hm
    left
    constructor
    · exact Nat.le_of_lt (Nat.lt_of_le_of_lt hlow hclosed.1)
    · by_contra hbehind
      exact hclosed.2.2 (firstOf layout b + m) (by omega) (by omega) hclose

/-- Behind a place inside a block there are bytes of it, or control falls through. -/
theorem lt_entryOf (avx : Bool) (hblock : graph.blocks[b]? = some block)
    (hlow : firstOf layout b ≤ k) (hhigh : k < firstOf layout (b + 1)) :
    startOf avx layout.flatten k < entryOf layout avx (b + 1) ∨ b + 1 ∈ block.exits := by
  obtain ⟨segment, hsegment, hshape⟩ := hlays.segment b block hblock
  have hend := firstOf_succ hsegment
  have hlastPos {item : Item} (hlast : segment.getLast? = some item)
      (hbytes : item.emitted avx ≠ []) :
      startOf avx layout.flatten k < entryOf layout avx (b + 1) := by
    rw [getLast?_eq_getElem?] at hlast
    have hlastItem := (getElem?_firstOf hsegment (lt_length hlast)).trans hlast
    have hmono := startOf_mono avx layout.flatten
      (show k ≤ firstOf layout b + (segment.length - 1) by omega)
    have hsucc := startOf_succ avx hlastItem
    have hpos := length_pos_iff.mpr hbytes
    rw [entryOf, hend, show firstOf layout b + segment.length
      = firstOf layout b + (segment.length - 1) + 1 by omega, hsucc]
    omega
  rcases hshape.ends with hfalls | hrets | ⟨s, hjumps⟩
  · rw [hlays.indexed b block hblock] at hfalls
    exact .inr hfalls
  · exact .inl (hlastPos hrets (encode_ne_nil avx .ret))
  · exact .inl (hlastPos hjumps (cons_ne_nil _ _))

end Items

/-! ## Steps and runs -/

/-- Where one step inside a block leads: it stays there, goes to the first byte of a chosen
successor, or returns. -/
inductive Onward (layout : List (List Item)) (avx : Bool) (b : Nat) (block : Block) (cpu : Cpu) :
    Status → Prop
  | inside {place : Nat} {next : Cpu}
      (hwithin : Within avx layout.flatten (firstOf layout b) (firstOf layout (b + 1)) place) :
      Onward layout avx b block cpu (.running place next)
  | exits {s : Nat} {next : Cpu} (hs : s ∈ block.exits) :
      Onward layout avx b block cpu (.running (entryOf layout avx s) next)
  | returned {op : Operation} (hop : block.terminator? = some op) (hret : op.instruction = .ret) :
      Onward layout avx b block cpu (.returned cpu.pop.1 cpu.pop.2)

/-- Where a run that starts at a block can be: in a block on a path from there, or returned from
such a block. -/
inductive Confined (graph : Graph) (layout : List (List Item)) (avx : Bool) (b : Nat) :
    Status → Prop
  | running {c pos : Nat} {cpu : Cpu} (hpath : Relation.ReflTransGen graph.Exit b c)
      (hc : c < graph.size)
      (hwithin : Within avx layout.flatten (firstOf layout c) (firstOf layout (c + 1)) pos) :
      Confined graph layout avx b (.running pos cpu)
  | returned {c : Nat} {block : Block} {op : Operation} {addr : BitVec 64} {cpu : Cpu}
      (hpath : Relation.ReflTransGen graph.Exit b c) (hblock : graph.blocks[c]? = some block)
      (hop : block.terminator? = some op) (hret : op.instruction = .ret) :
      Confined graph layout avx b (.returned addr cpu)

section Runs

include hlays

/-- Blocks without bytes are entered on the way to one that has some. -/
theorem confined_entry (avx : Bool) (hb : b < graph.size) (cpu : Cpu) :
    Confined graph layout avx b (.running (entryOf layout avx b) cpu) := by
  suffices h : ∃ c, Relation.ReflTransGen graph.Exit b c ∧ c < graph.size ∧
      Within avx layout.flatten (firstOf layout c) (firstOf layout (c + 1)) (entryOf layout avx b) by
    obtain ⟨c, hpath, hc, hwithin⟩ := h
    exact .running hpath hc hwithin
  induction hleft : graph.size - b generalizing b with
  | zero => omega
  | succ left ih =>
    obtain ⟨block, hblock⟩ : ∃ block, graph.blocks[b]? = some block :=
      ⟨_, Array.getElem?_eq_getElem hb⟩
    have hnonempty : firstOf layout b < firstOf layout (b + 1) := by
      obtain ⟨segment, hsegment, hshape⟩ := hlays.segment b block hblock
      obtain ⟨rest, rfl⟩ := hshape.enters
      rw [firstOf_succ hsegment, length_cons]
      omega
    rcases within_or_eq (Nat.le_refl _) hnonempty.le (firstOf_le_length layout (b + 1)) with
      hwithin | hempty
    · exact ⟨b, .refl, hb, hwithin⟩
    · rcases hlays.lt_entryOf avx hblock (Nat.le_refl _) hnonempty with hlt | hfalls
      · exact absurd hempty (Nat.ne_of_lt hlt)
      · obtain ⟨c, hpath, hc, hwithin⟩ := ih (hlays.lt_size_of_exits hblock hfalls) (by omega)
        refine ⟨c, .head ⟨block, hblock, hfalls⟩ hpath, hc, ?_⟩
        rwa [entryOf, hempty]

variable (hcode : Assembled avx layout.flatten code)
include hcode

theorem step_inside {pos : Nat} {status : Status} (hblock : graph.blocks[b]? = some block)
    (hwithin : Within avx layout.flatten (firstOf layout b) (firstOf layout (b + 1)) pos)
    (hstep : host.step code (.running pos cpu) = some status) :
    Onward layout avx b block cpu status := by
  obtain ⟨k, item, hlow, hhigh, hitem, hbytes, rfl⟩ := hwithin
  obtain ⟨found, segment, i, -, hshape, -, hi, hfound⟩ := hlays.exists_item hblock hlow hhigh
  rw [hitem] at hfound
  cases hfound
  have hfits := hshape.fits item (mem_of_getElem? hi)
  rcases hcode.step_cases hitem hfits.isRegular hbytes hstep with
    ⟨j, next, hpasses, rfl⟩ | ⟨rfl, rfl⟩
  · rcases hlays.inside_of_passes hcode hblock hlow hhigh hpasses with ⟨hj, hj'⟩ | ⟨s, hs, rfl⟩
    · rcases within_or_eq hj hj'.le (firstOf_le_length layout (b + 1)) with hwithin | hend
      · exact .inside hwithin
      · rw [hend]
        rcases hlays.lt_entryOf avx hblock hj hj' with hlt | hfalls
        · exact absurd hend (Nat.ne_of_lt hlt)
        · exact .exits hfalls
    · exact .exits hs
  · rcases hfits with hgoesOn | ⟨-, op, hop, hret⟩
    · cases hgoesOn
    · exact .returned hop hret

theorem confined_step {status next : Status} (hconfined : Confined graph layout avx b status)
    (hstep : host.step code status = some next) : Confined graph layout avx b next := by
  cases hconfined with
  | returned => cases hstep
  | @running c pos cpu hpath hc hwithin =>
    obtain ⟨block, hblock⟩ : ∃ block, graph.blocks[c]? = some block :=
      ⟨_, Array.getElem?_eq_getElem hc⟩
    cases hlays.step_inside hcode hblock hwithin hstep with
    | inside hstays => exact .running hpath hc hstays
    | @exits s after hs =>
      cases hlays.confined_entry avx (hlays.lt_size_of_exits hblock hs) after with
      | running hrest hlast hwithin =>
        exact .running (hpath.trans (.head ⟨block, hblock, hs⟩ hrest)) hlast hwithin
    | returned hop hret => exact .returned hpath hblock hop hret

/-- A run from the first byte of a block follows a path of the graph. -/
theorem confined_of_reaches (hb : b < graph.size) {status : Status}
    (hreaches : host.Reaches code (.running (entryOf layout avx b) cpu) status) :
    Confined graph layout avx b status := by
  induction hreaches with
  | refl => exact hlays.confined_entry avx hb cpu
  | tail _ hstep ih => exact hlays.confined_step hcode ih hstep

end Runs

end Lays

/-- The items from `low` to `high` are left at their end only. -/
def LeftAtEnd (avx : Bool) (items : List Item) (code : List UInt8) (low high : Nat) : Prop :=
  ∀ (host : Host) (pos : Nat) (cpu : Cpu) (status : Status),
    Within avx items low high pos → host.step code (.running pos cpu) = some status →
    ∃ place next, status = .running place next ∧
      (Within avx items low high place ∨ place = startOf avx items high)

theorem leftAtEnd_of_straight {avx : Bool} {items body rest : List Item} {code : List UInt8}
    {allowed : Instr → Prop} {low : Nat} (hcode : Assembled avx items code)
    (hdrop : items.drop low = body ++ rest) (hstraight : Straight allowed body)
    (hallow : ∀ instr, allowed instr → instr.isControl = false) :
    LeftAtEnd avx items code low (low + body.length) := by
  intro host pos cpu status hwithin hstep
  obtain ⟨k, item, hlow, hhigh, hitem, hbytes, rfl⟩ := hwithin
  obtain ⟨i, rfl⟩ := Nat.exists_eq_add_of_le hlow
  have hi : i < body.length := by omega
  have hbody {m : Nat} (hm : m < body.length) : items[low + m]? = body[m]? := by
    rw [← getElem?_drop, hdrop, getElem?_append_left hm]
  have hmem : body[i]? = some item := (hbody hi).symm.trans hitem
  have hkind := hstraight.mem_cases (mem_of_getElem? hmem)
  have hregular : item.isRegular = true := by
    rcases hkind with ⟨instr, rfl, hinstr⟩ | ⟨cond, rfl⟩ | rfl
    · exact isRegular_instr (hallow instr hinstr)
    · rfl
    · rfl
  have hlength : low + body.length ≤ items.length := by
    have := congrArg List.length hdrop
    rw [length_drop, length_append] at this
    omega
  rcases hcode.step_cases hitem hregular hbytes hstep with ⟨j, next, hpasses, hstatus⟩ | ⟨rfl, -⟩
  · refine ⟨_, next, hstatus, ?_⟩
    have hj : low ≤ j ∧ j ≤ low + body.length := by
      cases hpasses with
      | enter | close | instr | into | stay => omega
      | jump hjump =>
        rw [hitem] at hjump
        cases hjump
        rcases hkind with ⟨_, heq, -⟩ | ⟨_, heq⟩ | heq <;> cases heq
      | @skip cond j hopen hholds hclosed =>
        rw [hitem] at hopen
        cases hopen
        -- the first closing is not behind the one in the straight code
        obtain ⟨m, him, hm⟩ := hstraight.closes i cond hmem
        have hclose := (hbody (lt_length hm)).trans hm
        have hlt := lt_length hm
        have hfirst := hclosed.1
        refine ⟨by omega, ?_⟩
        by_contra hbehind
        exact hclosed.2.2 (low + m) (by omega) (by omega) hclose
    exact within_or_eq hj.1 hj.2 hlength
  · rcases hkind with ⟨_, heq, hinstr⟩ | ⟨_, heq⟩ | heq
    · cases heq
      cases hallow _ hinstr
    · cases heq
    · cases heq

end Code

/-! ## Exits -/

namespace Lowering

theorem drop_add_of_drop {items first rest : List Item} {k : Nat}
    (hdrop : items.drop k = first ++ rest) : items.drop (k + first.length) = rest := by
  rw [← drop_drop, hdrop, drop_left]

/-- Instructions that cannot fail have a state after them. -/
theorem exists_execute (host : Host) {instrs : List Instr}
    (htotal : ∀ instr ∈ instrs, instr.isTotal = true) (cpu : Cpu) :
    ∃ last, host.execute false (instrs.map .instr) cpu = some last := by
  induction instrs generalizing cpu with
  | nil => exact ⟨cpu, rfl⟩
  | cons instr instrs ih =>
    rw [forall_mem_cons] at htotal
    obtain ⟨next, hexec⟩ := host.exists_exec cpu htotal.1
    obtain ⟨last, hrest⟩ := ih htotal.2 next
    refine ⟨last, ?_⟩
    rw [map_cons, Host.execute, hexec]
    exact hrest

/-- Where control goes that arrives at the exit of a block, whatever the state is. -/
inductive Target.Leaves (target : Target) (block : Block) (code : List UInt8) (entry : Nat → Nat)
    (pos : Nat) : List Item → Prop
  | returned {op : Operation} {loads : List Instr} (hop : block.terminator? = some op)
      (hret : op.instruction = .ret)
      (hruns : ∀ (host : Host) (cpu : Cpu), ∃ last,
        host.execute false ((loads ++ target.frame.epilogue.dropLast).map .instr) cpu = some last ∧
        host.Reaches code (.running pos cpu) (.returned last.pop.1 last.pop.2)) :
      Leaves target block code entry pos ((loads ++ target.frame.epilogue).map .instr)
  | goesOn {next : Nat} (hop : ∀ op ∈ block.terminator?, op.instruction = .branch)
      (hnext : block.next? = some next)
      (hruns : ∀ (host : Host) (cpu : Cpu),
        host.Reaches code (.running pos cpu) (.running (entry next) cpu)) :
      Leaves target block code entry pos
        (if next = block.index + 1 then [] else [.jump none next])
  | decides {op : Operation} {cmp : Comparison} {a b : Operand} {rest : List Operand}
      {taken next : Nat} {compare : List Instr} (hop : block.terminator? = some op)
      (hbranch : op.instruction = .branchIf cmp) (hsrcs : op.sources = a :: b :: rest)
      (htaken : block.taken? = some taken) (hnext : block.next? = some next)
      (hcmp : target.deciding cmp a b = .ok (compare.map .instr))
      (hruns : ∀ (host : Host) (cpu : Cpu), ∃ decided,
        host.execute false (compare.map .instr) cpu = some decided ∧
        host.Reaches code (.running pos cpu)
          (.running (entry (if (decidingCondition cmp a).holds decided.flags then taken
            else next)) decided)) :
      Leaves target block code entry pos
        (compare.map .instr ++ .jump (some (decidingCondition cmp a)) taken ::
          if next = block.index + 1 then [] else [.jump none next])

section Exits

variable {graph : Graph} {layout : List (List Item)} {avx : Bool} {code : List UInt8}
  {target : Target} {b k : Nat} {block : Block} (hlays : Lays graph layout)
  (hcode : Assembled avx layout.flatten code) (hblock : graph.blocks[b]? = some block)
include hlays hcode hblock

/-- The way on to a successor leads to its first byte. -/
theorem reaches_goTo {next : Nat} {after : List Item} (hnext : next ∈ block.exits)
    (hdrop : layout.flatten.drop k = goTo block next ++ after)
    (hend : k + (goTo block next).length = firstOf layout (b + 1)) (host : Host) (cpu : Cpu) :
    host.Reaches code (.running (startOf avx layout.flatten k) cpu)
      (.running (entryOf layout avx next) cpu) := by
  rw [goTo, hlays.indexed b block hblock] at hdrop hend
  split at hdrop
  next heq =>
    rw [if_pos heq, length_nil, Nat.add_zero] at hend
    rw [hend, heq]
    exact .refl
  next hne =>
    have hentry := hlays.getElem?_entry (hlays.lt_size_of_exits hblock hnext)
    exact hcode.reaches_of_passes (.jump (getElem?_of_drop hdrop) rfl hentry)

theorem leaves_of_exits {exit after : List Item} (hexits : target.Exits block exit)
    (hdrop : layout.flatten.drop k = exit ++ after)
    (hend : k + exit.length = firstOf layout (b + 1)) :
    target.Leaves block code (entryOf layout avx) (startOf avx layout.flatten k) exit := by
  cases hexits with
  | @returned op loads hop hret hloads =>
    rw [← map_append] at hdrop ⊢
    refine .returned hop hret fun host cpu => ?_
    have htotal : ∀ instr ∈ loads ++ target.frame.epilogue.dropLast, instr.isTotal = true := by
      rw [forall_mem_append]
      exact ⟨fun instr hinstr => (hloads instr hinstr).1,
        fun instr hinstr => Target.isTotal_of_mem_epilogue hinstr⟩
    obtain ⟨last, hlast⟩ := exists_execute host htotal cpu
    rw [Target.epilogue_eq, ← append_assoc, map_append, append_assoc] at hdrop
    refine ⟨last, hlast, ((reaches_of_execute hcode hdrop).1 hlast).tail ?_⟩
    -- what is left is the return itself
    have hreturn : layout.flatten[k + ((loads ++ target.frame.epilogue.dropLast).map
        Item.instr).length]? = some (.instr .ret) := by
      rw [← getElem?_drop, hdrop, getElem?_append_right (Nat.le_refl _), Nat.sub_self]
      rfl
    rw [hcode.step_instr hreturn]
    rfl
  | @goesOn next hop hnext =>
    have hmem : next ∈ block.exits := by
      rw [Target.exits_of_goesOn hop, hnext]
      exact mem_singleton_self next
    exact .goesOn hop hnext fun host cpu =>
      reaches_goTo hlays hcode hblock hmem hdrop hend host cpu
  | @decides op cmp x y rest taken next compare hop hbranch hsrcs htaken hnext hcmp
      hinstrs =>
      have hall := Target.exits_of_decides hop hbranch
      rw [htaken, hnext] at hall
      have htakenMem : taken ∈ block.exits := hall ▸ mem_cons_self
      have hnextMem : next ∈ block.exits :=
        hall ▸ .tail _ (mem_singleton_self _)
      refine .decides hop hbranch hsrcs htaken hnext hcmp fun host cpu => ?_
      obtain ⟨decided, hdecided⟩ :=
        exists_execute host (fun instr hinstr => (hinstrs instr hinstr).1) cpu
      rw [append_assoc] at hdrop
      have hcompared := (reaches_of_execute hcode hdrop).1 hdecided
      refine ⟨decided, hdecided, hcompared.trans ?_⟩
      have hrest : layout.flatten.drop (k + (compare.map Item.instr).length)
          = .jump (some (decidingCondition cmp x)) taken :: (goTo block next ++ after) :=
        drop_add_of_drop hdrop
      have hjump := getElem?_of_drop hrest
      cases hholds : (decidingCondition cmp x).holds decided.flags with
      | true =>
        have hentry := hlays.getElem?_entry (hlays.lt_size_of_exits hblock htakenMem)
        exact hcode.reaches_of_passes (.jump hjump hholds hentry)
      | false =>
        apply (hcode.reaches_of_passes (.stay hjump hholds)).trans
        apply reaches_goTo hlays hcode hblock hnextMem (drop_succ_of_drop hrest)
        rw [length_append, length_cons] at hend
        omega

end Exits

variable {graph : Graph} {opts : Options} {alloc : Allocation} {args : List ValueType}
  {compiled : CompiledFunction}

/-- Code that takes control along the edges of a graph. The blocks stand one after the other, and
the items of each are those of its operations, left at their end only, and an exit. -/
structure Target.Follows (target : Target) (graph : Graph) (avx : Bool) (code : List UInt8)
    (layout : List (List Item)) : Prop where
  length : layout.length = graph.size
  assembled : Assembled avx layout.flatten code
  concatenated : code = (List.range graph.size).flatMap fun b =>
    bytesAt code (entryOf layout avx b) (entryOf layout avx (b + 1) - entryOf layout avx b)
  block : ∀ (b : Nat) block, graph.blocks[b]? = some block → ∃ body exit low high,
    target.operations block (decide (block.index = Graph.entry)) block.body = .ok body ∧
    layout[b]? = some (target.head block ++ (body ++ exit)) ∧
    low = firstOf layout b + (target.head block).length ∧ high = low + body.length ∧
    LeftAtEnd avx layout.flatten code low high ∧
    target.Leaves block code (entryOf layout avx) (startOf avx layout.flatten high) exit
  onward : ∀ (host : Host) (b : Nat) block pos cpu status, graph.blocks[b]? = some block →
    Within avx layout.flatten (firstOf layout b) (firstOf layout (b + 1)) pos →
    host.step code (.running pos cpu) = some status →
    Lays.Onward layout avx b block cpu status
  confined : ∀ (host : Host) (b : Nat) cpu status, b < graph.size →
    host.Reaches code (.running (entryOf layout avx b) cpu) status →
    Lays.Confined graph layout avx b status
  inside : ∀ c pos,
    Within avx layout.flatten (firstOf layout c) (firstOf layout (c + 1)) pos →
    entryOf layout avx c ≤ pos ∧ pos < entryOf layout avx (c + 1) ∧ pos < code.length

/-- Parts that are emitted one after the other. -/
theorem exists_parts {α : Type} {lower : α → Emission} {list : List α} {items : List Item}
    (hitems : sequence (list.map lower) = .ok items) :
    ∃ parts : List (List Item), parts.flatten = items ∧
      Forall₂ (fun a part => lower a = .ok part) list parts := by
  induction list generalizing items with
  | nil =>
    cases hitems
    exact ⟨[], rfl, .nil⟩
  | cons a list ih =>
    rw [map_cons] at hitems
    obtain ⟨part, rest, hpart, hrest, rfl⟩ := of_sequence_cons hitems
    obtain ⟨parts, rfl, hparts⟩ := ih hrest
    exact ⟨part :: parts, rfl, .cons hpart hparts⟩

theorem exists_layout {target : Target} {items : List Item}
    (hitems : target.function graph = .ok items) :
    ∃ layout : List (List Item), layout.flatten = items ∧ layout.length = graph.size ∧
      ∀ (b : Nat) block, graph.blocks[b]? = some block → ∃ segment, layout[b]? = some segment ∧
        target.block block = .ok segment := by
  obtain ⟨layout, hflatten, hlayout⟩ := exists_parts hitems
  obtain ⟨hlength, hall⟩ := forall₂_iff_get.mp hlayout
  refine ⟨layout, hflatten, hlength.symm, fun b block hblock => ?_⟩
  rw [← Array.getElem?_toList] at hblock
  have hb := lt_length hblock
  have hb' : b < layout.length := hlength ▸ hb
  refine ⟨layout[b], getElem?_eq_getElem hb', ?_⟩
  have hpart := hall b hb hb'
  rwa [get_eq_getElem, (getElem_eq_iff hb).mpr hblock] at hpart

theorem of_generate (hgenerate : graph.generate opts alloc args = .ok compiled) :
    Frame.compute opts.convention alloc.intUsed alloc.vecUsed alloc.spillSize
        graph.maxCallArguments? = .ok compiled.frame ∧
      ∃ items, (targetOf opts alloc compiled.frame args).function graph = .ok items ∧
        assemble opts.avx graph.size items = .ok compiled.code := by
  cases hframe : Frame.compute opts.convention alloc.intUsed alloc.vecUsed
      alloc.spillSize graph.maxCallArguments? with
  | error fault =>
    rw [Graph.generate, hframe] at hgenerate
    cases hgenerate
  | ok frame =>
    rw [generate_eq hframe] at hgenerate
    obtain ⟨items, hitems, hgenerate⟩ := of_bind hgenerate
    obtain ⟨code, hcode, hgenerate⟩ := of_bind hgenerate
    cases hgenerate
    exact ⟨rfl, items, hitems, hcode⟩

/-- Control in generated code follows the graph. -/
theorem generate_follows_graph
    (hidx : ∀ (b : Nat) block, graph.blocks[b]? = some block → block.index = b)
    (hsuccessors : ∀ block ∈ graph.blocks, ∀ s ∈ block.successors, s < graph.size)
    (hterminators : ∀ block ∈ graph.blocks, ∀ op ∈ block.operations.dropLast,
      op.instruction.isTerminator = false)
    (hgenerate : graph.generate opts alloc args = .ok compiled) :
    ∃ layout, (targetOf opts alloc compiled.frame args).Follows graph opts.avx
      compiled.code layout := by
  obtain ⟨-, items, hitems, hassemble⟩ := of_generate hgenerate
  obtain ⟨layout, rfl, hlength, hblocks⟩ := exists_layout hitems
  have hcode := assembled_of_assemble hassemble
  have hlays : Lays graph layout := by
    refine ⟨hlength, hidx, fun b block hblock => ?_, fun b block hblock => ?_⟩
    · exact hsuccessors block (Array.mem_of_getElem? hblock)
    · obtain ⟨segment, hsegment, hlowered⟩ := hblocks b block hblock
      have hlast := hterminators block (Array.mem_of_getElem? hblock)
      exact ⟨segment, hsegment, Target.segment_of_block hlast hlowered⟩
  have hend : entryOf layout opts.avx graph.size = compiled.code.length := by
    rw [hcode.length, ← hlength, entryOf, firstOf_length]
  refine ⟨layout, hlength, hcode, ?_, ?_, ?_, ?_, ?_⟩
  · have hcut := take_eq_flatMap compiled.code (entryOf_zero layout opts.avx)
      (fun b => entryOf_mono opts.avx (Nat.le_succ b)) graph.size
    rwa [hend, List.take_length] at hcut
  · intro b block hblock
    obtain ⟨segment, hsegment, hlowered⟩ := hblocks b block hblock
    obtain ⟨body, exit, hbody, hexit, rfl⟩ := Target.of_block hlowered
    have hlast := hterminators block (Array.mem_of_getElem? hblock)
    have hstraight := Target.straight_operations (Block.isTerminator_body hlast) hbody
    -- the operations follow the head of the block, and the exit follows them
    have hdrop := drop_firstOf_eq hsegment
    rw [List.append_assoc, List.append_assoc] at hdrop
    have hdropBody := drop_add_of_drop hdrop
    refine ⟨body, exit, _, _, hbody, hsegment, rfl, rfl, ?_, ?_⟩
    · apply leftAtEnd_of_straight hcode hdropBody hstraight
      rintro instr ⟨op, -, hpermits⟩
      exact hpermits.goesOn
    · apply leaves_of_exits hlays hcode hblock (Target.exits_of_exit hexit)
        (drop_add_of_drop hdropBody)
      rw [firstOf_succ hsegment, List.length_append, List.length_append]
      omega
  · exact fun host b block pos cpu status hblock hwithin hstep =>
      hlays.step_inside hcode hblock hwithin hstep
  · exact fun host b cpu status hb hreaches => hlays.confined_of_reaches hcode hb hreaches
  · intro c pos hwithin
    obtain ⟨hlow, hhigh⟩ := hwithin.bounds
    refine ⟨hlow, hhigh, Nat.lt_of_lt_of_le hhigh ?_⟩
    rw [hcode.length]
    exact startOf_mono _ _ (firstOf_le_length layout (c + 1))

/-- Whether the items of a graph are short code in which no near jump is open and every far jump
has its block. -/
def Target.finishes (target : Target) (graph : Graph) (avx : Bool) : Bool :=
  match (target.function graph >>= fun items => (Stream.new avx graph.size).emit items :
    Outcome Stream) with
  | .ok stream => stream.near.isNone && decide (stream.position < twoPow 31) &&
      stream.jumps.toList.all fun jump => stream.blocks[jump.target]?.join.isSome
  | .error _ => false

theorem exists_generate_of_finishes (graph : Graph) (opts : Options) (alloc : Allocation)
    (args : List ValueType) {frame : Frame}
    (hframe : Frame.compute opts.convention alloc.intUsed alloc.vecUsed
      alloc.spillSize graph.maxCallArguments? = .ok frame)
    (hfinishes : (targetOf opts alloc frame args).finishes graph opts.avx = true) :
    ∃ code, graph.generate opts alloc args = .ok { code, frame } := by
  rw [Target.finishes] at hfinishes
  split at hfinishes
  next stream hstream =>
    obtain ⟨items, hitems, hemit⟩ := of_bind hstream
    rw [Bool.and_eq_true, Bool.and_eq_true, Option.isNone_iff_eq_none, decide_eq_true_eq,
      all_eq_true] at hfinishes
    obtain ⟨⟨hnear, hshort⟩, hent⟩ := hfinishes
    have hemit' := of_emit_eq_ok hemit
    have hblocks : stream.Landing := by
      intro jump hjump
      obtain ⟨p, hp⟩ := Option.isSome_iff_exists.mp (hent jump hjump)
      exact ⟨p, Option.join_eq_some_iff.mp hp⟩
    obtain ⟨code, hcode⟩ :=
      exists_finish (laid_of_emit hemit') (ordered_of_emit hemit') hnear hshort hblocks
    refine ⟨code, ?_⟩
    rw [generate_eq hframe, hitems]
    change assemble opts.avx graph.size items >>= _ = _
    rw [assemble, hemit]
    change stream.finish >>= _ = _
    rw [hcode]
    rfl
  next => cases hfinishes

/-- A loop between an entry that may skip it and a block that returns. The second block has no
terminator, and its successor is not the block that follows. -/
def loopSample : Graph where
  blocks := #[
    { index := 0
      operations := [.copy (.localVar 0 .i64) (.constant 5 .i64),
        .branchIf .gt (.localVar 0 .i64) (.constant 3 .i64)]
      successors := [1, 2] },
    { index := 1, successors := [3], predecessors := [0] },
    { index := 2
      operations := [
        .compute .sub (.localVar 0 .i64) [.localVar 0 .i64, .constant 1 .i64],
        .branchIf .ne (.localVar 0 .i64) (.constant 0 .i64)]
      successors := [3, 2], predecessors := [0, 2] },
    { index := 3, operations := [.ret (.localVar 0 .i64)]
      predecessors := [1, 2] }]
  locals := ⟨#[some .i64]⟩

/-- The only local in a register that the prologue saves. -/
def loopHomes : Allocation where
  locations := #[some (.register .rbx)]
  intUsed := 8
  vecUsed := 0
  spillSize := 0

theorem generate_follows_graph_loopSample :
    ∃ compiled, loopSample.generate {} loopHomes [] = .ok compiled ∧ ∃ layout,
      (targetOf {} loopHomes compiled.frame []).Follows loopSample false compiled.code layout := by
  have hframe : Frame.compute .sysv loopHomes.intUsed loopHomes.vecUsed loopHomes.spillSize
      loopSample.maxCallArguments? = .ok { intSaved := 8 } := by decide
  obtain ⟨code, hgenerate⟩ :=
    exists_generate_of_finishes loopSample {} loopHomes [] hframe (by decide +kernel)
  have hidx : ∀ b < 4, ∀ block ∈ loopSample.blocks[b]?, block.index = b := by decide
  refine ⟨_, hgenerate, generate_follows_graph ?_ (by decide) (by decide) hgenerate⟩
  intro b block hblock
  exact hidx b (Array.getElem?_eq_some_iff.mp hblock).1 block hblock

end Lowering

end GraphJit
