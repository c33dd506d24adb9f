import GraphJit.Proofs.Decoding
import GraphJit.Proofs.GeneratedCode
import GraphJit.Proofs.Placeholders
import Mathlib.Logic.Relation

/-! # Running assembled code

Code is run from its bytes: the instruction at a position is decoded, and control
goes on behind it or at the target of a jump. For code that was assembled from
items this is the same as passing from item to item. Two lemmas say so, one for each
direction, and one more packages the induction over whole runs.
-/

namespace GraphJit

open X64 Code List

namespace X64

/-! ## The machine -/

/-- A program that runs from a position of its code, or has returned to an address. -/
inductive Status where
  | running (pos : Nat) (cpu : Cpu)
  | returned (addr : BitVec 64) (cpu : Cpu)

/-- Jump by an offset from a position. Nothing is known about places before the code. -/
def Cpu.jump (cpu : Cpu) (pos : Nat) (off : BitVec 32) : Option Status :=
  let target : Int := pos + off.toInt
  if target < 0 then none else some (.running target.toNat cpu)

namespace Host

/-- Where an instruction leads that ends at a position. -/
def proceed (host : Host) (cpu : Cpu) (pos : Nat) : Instr → Option Status
  | .ret => some (.returned cpu.pop.1 cpu.pop.2)
  | .jmp off => cpu.jump pos off
  | .jcc cond off =>
    if cond.holds cpu.flags then cpu.jump pos off
    else some (.running pos cpu)
  | instr => (host.exec cpu instr).map (.running pos)

/-- Run the instruction that stands at the current position. -/
def step (host : Host) (code : List UInt8) : Status → Option Status
  | .running pos cpu =>
    (readInstr.run (code.drop pos)).bind fun ((_, instr), rest) =>
      host.proceed cpu (code.length - rest.length) instr
  | .returned .. => none

/-- A run of any length. -/
def Reaches (host : Host) (code : List UInt8) : Status → Status → Prop :=
  Relation.ReflTransGen fun before after => host.step code before = some after

end Host

end X64

namespace Code

/-! ## Assembled items -/

/-- What the code of items is made of. -/
structure Assembled (avx : Bool) (items : List Item) (code : List UInt8) : Prop where
  length : code.length = startOf avx items items.length
  instr : ∀ k instr, items[k]? = some (.instr instr) →
    bytesAt code (startOf avx items k) (instr.encode avx).length = instr.encode avx
  far : ∀ k cond target, items[k]? = some (.jump cond target) →
    ∃ j disp, items[j]? = some (.enter target) ∧
      bytesAt code (startOf avx items k) (farBytes disp cond).length =
        farBytes disp cond ∧
      (startOf avx items (k + 1) : Int) + disp.toInt = startOf avx items j
  near : ∀ k cond, items[k]? = some (.openNear cond) →
    ∃ j disp, ClosedBy items k j ∧
      bytesAt code (startOf avx items k) 2 = nearBytes disp cond ∧
      (startOf avx items (k + 1) : Int) + disp.toInt = startOf avx items j
  once : ∀ b k j : Nat, items[k]? = some (.enter b) → items[j]? = some (.enter b) → k = j

variable {avx : Bool} {count : Nat} {items : List Item} {code : List UInt8}

variable {k : Nat} {item : Item} {host : Host} {cpu : Cpu} {status : Status}

/-- The bytes of an item among those of all items. -/
theorem getElem?_emitted {i : Nat} (hk : items[k]? = some item)
    (hi : i < (item.emitted avx).length) :
    (items.flatMap (Item.emitted avx))[startOf avx items k + i]? = (item.emitted avx)[i]? := by
  have hsplit : items.flatMap (Item.emitted avx) = (items.take k).flatMap (Item.emitted avx)
      ++ (item.emitted avx ++ (items.drop (k + 1)).flatMap (Item.emitted avx)) := by
    conv_lhs => rw [← take_append_drop k items, drop_eq_getElem?_toList_append, hk]
    simp
  rw [hsplit, startOf, getElem?_append_right (Nat.le_add_right ..), Nat.add_sub_cancel_left,
    getElem?_append_left hi]

theorem assembled_of_assemble (hasm : assemble avx count items = .ok code) :
    Assembled avx items code := by
  obtain ⟨stream, hstream, hfinish⟩ := of_bind hasm
  have hemit := of_emit_eq_ok hstream
  have hlaid := laid_of_emit hemit
  obtain ⟨hbound, hclosed, filled, hfilled, hspl⟩ := of_finish hfinish
  constructor
  · rw [hspl.length, Array.length_toList]
    exact hlaid.position_eq
  · intro k instr hk
    apply bytesAt_eq
    intro i hi
    have hstop := startOf_succ avx hk
    rw [kept_of_spliced hspl hfilled hlaid _ ?_, ← Array.getElem?_toList, hlaid.code]
    · exact getElem?_emitted hk hi
    · -- other items, placeholders among them, lie before or behind
      intro m item hm hplaceholder
      rcases Nat.lt_trichotomy m k with hlt | rfl | hgt
      · have hmono := startOf_mono avx items hlt
        right
        exact Nat.le_add_right_of_le hmono
      · rw [hk] at hm
        cases hm
        cases hplaceholder
      · have hmono := startOf_mono avx items hgt
        rw [hstop, Item.emitted] at hmono
        left
        exact Nat.lt_of_lt_of_le (Nat.add_lt_add_left hi _) hmono
  · intro k cond target hk
    obtain ⟨j, disp, hj, -, hbytes, hvalue⟩ :=
      far_of_spliced hspl hfilled hemit hbound k cond target hk
    refine ⟨j, disp, hj, ?_, ?_⟩
    · rw [length_farBytes, hbytes]
    · rw [startOf_succ avx hk, Item.emitted, length_replicate]
      exact hvalue
  · intro k cond hk
    obtain ⟨j, disp, hj, hbytes, hvalue⟩ :=
      near_of_spliced hspl hlaid hclosed k cond hk
    refine ⟨j, disp, hj, hbytes, ?_⟩
    rw [startOf_succ avx hk, Item.emitted, length_replicate]
    exact hvalue
  · exact hlaid.once

/-! ## From item to item -/

/-- Whether a jump is taken. -/
def isTaken (flags : Flags) : Option Condition → Bool
  | none => true
  | some cond => cond.holds flags

/-- Control passes from item `k` to another item. -/
inductive Passes (host : Host) (items : List Item) (k : Nat) (cpu : Cpu) : Nat → Cpu → Prop
  | enter {block : Nat} (hitem : items[k]? = some (.enter block)) :
      Passes host items k cpu (k + 1) cpu
  | close (hitem : items[k]? = some .closeNear) : Passes host items k cpu (k + 1) cpu
  | instr {instr : Instr} {next : Cpu} (hitem : items[k]? = some (.instr instr))
      (hexec : host.exec cpu instr = some next) : Passes host items k cpu (k + 1) next
  | jump {cond : Option Condition} {target j : Nat}
      (hitem : items[k]? = some (.jump cond target))
      (htaken : isTaken cpu.flags cond = true) (hentry : items[j]? = some (.enter target)) :
      Passes host items k cpu j cpu
  | stay {cond : Option Condition} {target : Nat}
      (hitem : items[k]? = some (.jump cond target))
      (htaken : isTaken cpu.flags cond = false) : Passes host items k cpu (k + 1) cpu
  | skip {cond : Condition} {j : Nat} (hitem : items[k]? = some (.openNear cond))
      (hholds : cond.holds cpu.flags = true) (hclosed : ClosedBy items k j) :
      Passes host items k cpu j cpu
  | into {cond : Condition} (hitem : items[k]? = some (.openNear cond))
      (hholds : cond.holds cpu.flags = false) : Passes host items k cpu (k + 1) cpu

/-- A jump from the end of an item to another item. -/
theorem jump_eq {j : Nat} {disp : BitVec 32}
    (hvalue : (startOf avx items (k + 1) : Int) + disp.toInt = startOf avx items j) (cpu : Cpu) :
    cpu.jump (startOf avx items (k + 1)) disp = some (.running (startOf avx items j) cpu) := by
  rw [Cpu.jump, hvalue]
  rfl

namespace Assembled

variable {host : Host} {k j : Nat} {cpu next : Cpu} (hcode : Assembled avx items code)
include hcode

variable {item : Item} {instr : Instr} {bytes : List UInt8}

theorem stop_le (hk : items[k]? = some item) : startOf avx items (k + 1) ≤ code.length := by
  rw [hcode.length]
  exact startOf_mono avx items (lt_length hk)

section

variable (hk : items[k]? = some item) (hlength : (item.emitted avx).length = bytes.length)
  (hbytes : bytesAt code (startOf avx items k) bytes.length = bytes)
include hk hlength hbytes

omit hcode in
/-- The bytes of an item are followed by those of the next. -/
theorem drop_startOf :
    code.drop (startOf avx items k) = bytes ++ code.drop (startOf avx items (k + 1)) := by
  conv_lhs => rw [← take_append_drop bytes.length (code.drop _), drop_drop]
  rw [startOf_succ avx hk, hlength]
  exact congrArg (· ++ _) hbytes

/-- The instruction whose bytes stand at an item is run there. -/
theorem step_of_reads {extended : Bool} (hread : Reads readInstr bytes (extended, instr))
    (cpu : Cpu) : host.step code (.running (startOf avx items k) cpu)
      = host.proceed cpu (startOf avx items (k + 1)) instr := by
  have hinside := hcode.stop_le hk
  rw [Host.step, drop_startOf hk hlength hbytes, hread]
  change host.proceed cpu (code.length - (code.drop (startOf avx items (k + 1))).length) instr = _
  rw [length_drop, Nat.sub_sub_self hinside]

end

/-- An instruction among the items is the one that its bytes decode to. -/
theorem readInstr_startOf (hk : items[k]? = some (.instr instr)) : ∃ extended rest,
      readInstr.run (code.drop (startOf avx items k)) = some ((extended, instr), rest) := by
  rw [drop_startOf hk rfl (hcode.instr k instr hk)]
  exact ⟨_, _, reads_encode avx instr _⟩

theorem step_instr (hk : items[k]? = some (.instr instr)) (cpu : Cpu) :
    host.step code (.running (startOf avx items k) cpu)
      = host.proceed cpu (startOf avx items (k + 1)) instr :=
  hcode.step_of_reads hk rfl (hcode.instr k instr hk) (reads_encode avx instr) cpu

omit hcode in
/-- As many bytes are kept for a far jump as it takes. -/
theorem length_emitted_jump (avx : Bool) (cond : Option Condition) (target : Nat)
    (disp : BitVec 32) : (Item.emitted avx (.jump cond target)).length
      = (farBytes disp cond).length := by
  rw [length_farBytes, Item.emitted, length_replicate]

theorem step_jump (host : Host) {cond : Option Condition} {target : Nat}
    (hk : items[k]? = some (.jump cond target)) : ∃ j, items[j]? = some (.enter target) ∧ ∀ cpu,
      host.step code (.running (startOf avx items k) cpu)
        = some (.running (startOf avx items (if isTaken cpu.flags cond then j else k + 1))
            cpu) := by
  obtain ⟨j, disp, hj, hbytes, hvalue⟩ := hcode.far k cond target hk
  refine ⟨j, hj, fun cpu => ?_⟩
  have hlength := length_emitted_jump avx cond target disp
  rw [hcode.step_of_reads hk hlength hbytes (reads_farBytes disp cond)]
  cases cond with
  | none => exact jump_eq hvalue cpu
  | some cond =>
    change (if cond.holds cpu.flags then cpu.jump _ _ else _) = _
    rw [jump_eq hvalue cpu, isTaken]
    split <;> rfl

theorem step_openNear (host : Host) {cond : Condition} (hk : items[k]? = some (.openNear cond)) :
    ∃ j, ClosedBy items k j ∧ ∀ cpu, host.step code (.running (startOf avx items k) cpu)
        = some (.running (startOf avx items (if cond.holds cpu.flags then j else k + 1)) cpu) := by
  obtain ⟨j, disp, hj, hbytes, hvalue⟩ := hcode.near k cond hk
  refine ⟨j, hj, fun cpu => ?_⟩
  have hlength : (Item.emitted avx (.openNear cond)).length
      = (nearBytes disp cond).length := rfl
  rw [hcode.step_of_reads hk hlength hbytes (reads_nearBytes disp cond)]
  change (if cond.holds cpu.flags then cpu.jump _ _ else _) = _
  rw [← BitVec.toInt_signExtend_of_le (show 8 ≤ 32 by decide)] at hvalue
  rw [jump_eq hvalue cpu]
  split <;> rfl

/-- Passing from item to item is a run of the code. -/
theorem reaches_of_passes (hpasses : Passes host items k cpu j next) :
    host.Reaches code (.running (startOf avx items k) cpu)
      (.running (startOf avx items j) next) := by
  cases hpasses with
  | enter hitem | close hitem =>
    rw [startOf_succ avx hitem, Item.emitted, length_nil, Nat.add_zero]
    exact .refl
  | @instr instr _ hitem hexec =>
    apply Relation.ReflTransGen.single
    rw [hcode.step_instr hitem]
    cases instr with
    | ret | jmp | jcc => cases hexec
    | _ => exact congrArg (Option.map _) hexec
  | jump hitem htaken hentry =>
    obtain ⟨found, hfound, hstep⟩ := hcode.step_jump host hitem
    apply Relation.ReflTransGen.single
    rw [hstep, if_pos htaken, hcode.once _ _ _ hfound hentry]
  | stay hitem htaken =>
    obtain ⟨found, -, hstep⟩ := hcode.step_jump host hitem
    apply Relation.ReflTransGen.single
    rw [hstep, if_neg (by rw [htaken]; decide)]
  | skip hitem hholds hclosed =>
    obtain ⟨found, hfound, hstep⟩ := hcode.step_openNear host hitem
    apply Relation.ReflTransGen.single
    rw [hstep, if_pos hholds, hfound.unique hclosed]
  | into hitem hholds =>
    obtain ⟨found, -, hstep⟩ := hcode.step_openNear host hitem
    apply Relation.ReflTransGen.single
    rw [hstep, if_neg (by rw [hholds]; decide)]

end Assembled

/-! ## Whole runs -/

/-- Whether an item is neither raw data nor a jump that says nothing about its target. -/
def Item.isRegular : Item → Bool
  | .bytes _ | .padding _ | .instr (.jmp _) | .instr (.jcc _ _) => false
  | _ => true

theorem readInstr_nil : readInstr.run [] = none := rfl

/-- An instruction that is no jump returns, or goes on behind it. -/
theorem of_proceed {pos : Nat} {instr : Instr} (hregular : (Item.instr instr).isRegular = true)
    (hproceed : host.proceed cpu pos instr = some status) :
    (instr = .ret ∧ status = .returned cpu.pop.1 cpu.pop.2) ∨
      ∃ next, host.exec cpu instr = some next ∧ status = .running pos next := by
  unfold Host.proceed at hproceed
  split at hproceed
  next =>
    cases hproceed
    exact .inl ⟨rfl, rfl⟩
  next => cases hregular
  next => cases hregular
  next =>
    obtain ⟨next, hexec, hstatus⟩ := Option.map_eq_some_iff.mp hproceed
    exact .inr ⟨next, hexec, hstatus.symm⟩

/-- What one step can do where an item has bytes: it passes to another item, or returns. -/
theorem Assembled.step_cases (hcode : Assembled avx items code) (hitem : items[k]? = some item)
    (hregular : item.isRegular = true) (hbytes : item.emitted avx ≠ [])
    (hstep : host.step code (.running (startOf avx items k) cpu) = some status) :
    (∃ j next, Passes host items k cpu j next ∧ status = .running (startOf avx items j) next) ∨
      (item = .instr .ret ∧ status = .returned cpu.pop.1 cpu.pop.2) := by
  cases item with
  | enter | closeNear => exact absurd rfl hbytes
  | bytes | padding => cases hregular
  | jump cond target =>
    obtain ⟨j, hj, hjump⟩ := hcode.step_jump host hitem
    rw [hjump] at hstep
    cases hstep
    refine .inl ⟨_, _, ?_, rfl⟩
    split
    next htaken => exact .jump hitem htaken hj
    next htaken => exact .stay hitem (Bool.eq_false_of_not_eq_true htaken)
  | openNear cond =>
    obtain ⟨j, hj, hjump⟩ := hcode.step_openNear host hitem
    rw [hjump] at hstep
    cases hstep
    refine .inl ⟨_, _, ?_, rfl⟩
    split
    next htrue => exact .skip hitem htrue hj
    next hfalse => exact .into hitem (Bool.eq_false_of_not_eq_true hfalse)
  | instr instr =>
    rw [hcode.step_instr hitem] at hstep
    rcases of_proceed hregular hstep with ⟨rfl, hstatus⟩ | ⟨next, hexec, hstatus⟩
    · exact .inr ⟨rfl, hstatus⟩
    · exact .inl ⟨_, next, .instr hitem hexec, hstatus⟩

theorem passes_of_emitted (hitem : items[k]? = some item) (hregular : item.isRegular = true)
    (hempty : item.emitted avx = []) (cpu : Cpu) : Passes host items k cpu (k + 1) cpu := by
  cases item with
  | enter block => exact .enter hitem
  | closeNear => exact .close hitem
  | bytes | padding => cases hregular
  | instr instr => exact absurd hempty (encode_ne_nil avx instr)
  | jump cond target => cases cond <;> cases hempty
  | openNear cond => cases hempty

section Invariant

variable {host : Host} {holds : Nat → Cpu → Prop} (hcode : Assembled avx items code)
  (hregular : ∀ item ∈ items, item.isRegular = true)
  (hkeep : ∀ {k j : Nat} {cpu next : Cpu}, holds k cpu → Passes host items k cpu j next →
    holds j next)
include hcode hregular hkeep

variable {cpu : Cpu} {status : Status} {k : Nat}

/-- What is kept from item to item is kept by each step of the code. -/
theorem invariant_step (hholds : holds k cpu)
    (hstep : host.step code (.running (startOf avx items k) cpu) = some status) :
    (∃ j next, status = .running (startOf avx items j) next ∧ holds j next) ∨
      ∃ j, items[j]? = some (.instr .ret) ∧ holds j cpu ∧
        status = .returned cpu.pop.1 cpu.pop.2 := by
  -- items without bytes are passed on the way to the one whose instruction is run
  induction hleft : items.length - k generalizing k with
  | zero =>
    have hend : items.length ≤ k := Nat.le_of_sub_eq_zero hleft
    have hdrop : code.drop (startOf avx items k) = [] := by
      apply drop_of_length_le
      rw [hcode.length]
      exact startOf_mono avx items hend
    rw [Host.step, hdrop, readInstr_nil] at hstep
    cases hstep
  | succ left ih =>
    obtain ⟨item, hitem⟩ : ∃ item, items[k]? = some item := ⟨_, getElem?_eq_getElem (by omega)⟩
    have hshape := hregular item (mem_of_getElem? hitem)
    by_cases hempty : item.emitted avx = []
    · apply ih (hkeep hholds (passes_of_emitted hitem hshape hempty cpu)) _ (by omega)
      rwa [startOf_succ avx hitem, hempty, length_nil, Nat.add_zero]
    · rcases hcode.step_cases hitem hshape hempty hstep with
        ⟨j, next, hpasses, hstatus⟩ | ⟨rfl, hstatus⟩
      · exact .inl ⟨j, next, hstatus, hkeep hholds hpasses⟩
      · exact .inr ⟨k, hitem, hholds, hstatus⟩

/-- What is kept from item to item holds all along a run of the code. -/
theorem invariant_reaches (hholds : holds k cpu)
    (hmeets : host.Reaches code (.running (startOf avx items k) cpu) status) :
    (∃ j next, status = .running (startOf avx items j) next ∧ holds j next) ∨
      ∃ j last, items[j]? = some (.instr .ret) ∧ holds j last ∧
        status = .returned last.pop.1 last.pop.2 := by
  induction hmeets with
  | refl => exact .inl ⟨k, cpu, rfl, hholds⟩
  | tail _ hstep ih =>
    rcases ih with ⟨j, next, rfl, hnext⟩ | ⟨-, last, -, -, rfl⟩
    · rcases invariant_step hcode hregular hkeep hnext hstep with
        hrunning | ⟨l, hret, hlast, hstatus⟩
      · exact .inl hrunning
      · exact .inr ⟨l, next, hret, hlast, hstatus⟩
    · cases hstep

omit hkeep in
/-- A run from the start of the code is always where an item starts, until it returns. -/
theorem status_of_reaches (hmeets : host.Reaches code (.running 0 cpu) status) :
    (∃ j next, status = .running (startOf avx items j) next) ∨
      ∃ (j : Nat) (last : Cpu), items[j]? = some (.instr .ret) ∧
        status = .returned last.pop.1 last.pop.2 := by
  have hkeep {k j : Nat} {cpu next : Cpu} (_ : True) (_ : Passes host items k cpu j next) : True :=
    trivial
  have hstart : startOf avx items 0 = 0 := rfl
  rw [← hstart] at hmeets
  rcases invariant_reaches hcode hregular hkeep trivial hmeets with
    ⟨j, next, hstatus, -⟩ | ⟨j, last, hret, -, hstatus⟩
  · exact .inl ⟨j, next, hstatus⟩
  · exact .inr ⟨j, last, hret, hstatus⟩

end Invariant

end Code

/-! ## Straight code with near jumps -/

/-- The state after items without far jumps. While a near jump skips items, nothing happens. -/
def X64.Host.execute (host : Host) : Bool → List Item → Cpu → Option Cpu
  | false, [], cpu => some cpu
  | true, [], _ => none
  | true, .closeNear :: items, cpu => host.execute false items cpu
  | true, _ :: items, cpu => host.execute true items cpu
  | false, .instr instr :: items, cpu =>
    (host.exec cpu instr).bind fun next => host.execute false items next
  | false, .openNear cond :: items, cpu =>
    host.execute (cond.holds cpu.flags) items cpu
  | false, .closeNear :: items, cpu => host.execute false items cpu
  | false, _ :: _, _ => none

/-- Items that are left at their end are followed by more items. -/
theorem X64.Host.execute_append {host : Host} {skipping : Bool} {first : List Item}
    (second : List Item) {cpu mid : Cpu}
    (hfirst : host.execute skipping first cpu = some mid) :
    host.execute skipping (first ++ second) cpu = host.execute false second mid := by
  induction first generalizing skipping cpu with
  | nil =>
    cases skipping with
    | false => cases hfirst; rfl
    | true => cases hfirst
  | cons item rest ih =>
    cases skipping with
    | true =>
      cases item with
      | closeNear => exact ih hfirst
      | _ => exact ih hfirst
    | false =>
      cases item with
      | instr instr =>
        obtain ⟨next, hexec, hrest⟩ := Option.bind_eq_some_iff.mp hfirst
        rw [cons_append, execute, hexec]
        exact ih hrest
      | openNear cond => exact ih hfirst
      | closeNear => exact ih hfirst
      | bytes | padding | enter | jump => cases hfirst

namespace Code

variable {items rest : List Item} {k : Nat} {item : Item}

theorem getElem?_of_drop (hdrop : items.drop k = item :: rest) : items[k]? = some item := by
  rw [← Nat.add_zero k, ← getElem?_drop, hdrop]
  rfl

theorem drop_of_getElem? (hitem : items[k]? = some item) :
    items.drop k = item :: items.drop (k + 1) := by
  rw [drop_eq_getElem?_toList_append, hitem]
  rfl

theorem drop_succ_of_drop (hdrop : items.drop k = item :: rest) : items.drop (k + 1) = rest := by
  rw [← drop_drop, hdrop]
  rfl

/-- Executing a segment of the items is a run over it. While items are skipped, the run is already
at the closing of the near jump that skips them. -/
theorem reaches_of_execute {avx : Bool} {after : List Item} {code : List UInt8} {host : Host}
    (hcode : Assembled avx items code) {segment : List Item} {cpu next : Cpu}
    (hdrop : items.drop k = segment ++ after) : (host.execute false segment cpu = some next →
      host.Reaches code (.running (startOf avx items k) cpu)
        (.running (startOf avx items (k + segment.length)) next)) ∧
    (host.execute true segment cpu = some next →
      ∀ start < k, (∀ m, start < m → m < k → items[m]? ≠ some .closeNear) →
        ∃ j, ClosedBy items start j ∧ host.Reaches code (.running (startOf avx items j) cpu)
            (.running (startOf avx items (k + segment.length)) next)) := by
  induction segment generalizing k cpu with
  | nil =>
    constructor
    · intro hexecute
      cases hexecute
      exact .refl
    · intro hexecute
      cases hexecute
  | cons item rest ih =>
    have hitem := getElem?_of_drop hdrop
    have hrest {cpu : Cpu} := @ih (k + 1) cpu (drop_succ_of_drop hdrop)
    have hlength : k + 1 + rest.length = k + (item :: rest).length := by
      rw [length_cons]
      omega
    rw [hlength] at hrest
    -- from the next item on, if control passes there
    have hthrough {mid : Cpu} (hpasses : Passes host items k cpu (k + 1) mid)
        (hexecute : host.execute false rest mid = some next) :
        host.Reaches code (.running (startOf avx items k) cpu)
          (.running (startOf avx items (k + (item :: rest).length)) next) :=
      (hcode.reaches_of_passes hpasses).trans (hrest.1 hexecute)
    constructor
    · intro hexecute
      cases item with
      | instr instr =>
        obtain ⟨mid, hexec, hexecute⟩ := Option.bind_eq_some_iff.mp hexecute
        exact hthrough (.instr hitem hexec) hexecute
      | closeNear => exact hthrough (.close hitem) hexecute
      | openNear cond =>
        rw [Host.execute] at hexecute
        cases hholds : cond.holds cpu.flags with
        | false =>
          rw [hholds] at hexecute
          exact hthrough (.into hitem hholds) hexecute
        | true =>
          rw [hholds] at hexecute
          obtain ⟨j, hclosed, hmeets⟩ := hrest.2 hexecute k (Nat.lt_succ_self k)
            fun m hkm hm => absurd hkm (Nat.not_lt.mpr (Nat.le_of_lt_succ hm))
          exact (hcode.reaches_of_passes (.skip hitem hholds hclosed)).trans hmeets
      | bytes | padding | enter | jump => cases hexecute
    · intro hexecute start hstart hfree
      by_cases hclose : item = .closeNear
      · subst hclose
        rw [Host.execute] at hexecute
        exact ⟨k, ⟨hstart, hitem, hfree⟩, hthrough (.close hitem) hexecute⟩
      · have hskip : host.execute true rest cpu = some next := by
          cases item with
          | closeNear => exact absurd rfl hclose
          | _ => exact hexecute
        apply hrest.2 hskip start (by omega)
        intro m hm hmk
        rcases Nat.lt_succ_iff_lt_or_eq.mp hmk with hlt | rfl
        · exact hfree m hm hlt
        · rw [hitem]
          simpa using hclose

end Code

end GraphJit
