import GraphJit.Code.Stream
import GraphJit.Proofs.Splicing
import Mathlib.Data.Nat.Find
import Mathlib.Order.Basic

/-! # Where emitted items stand

Emission can go on after a step has failed, and what it leaves on record has been
put there by items. If no step has failed, the bytes of a stream are those of its
items, one after the other, and block starts, far jumps and near jumps are recorded
with the positions of their items.
-/

namespace GraphJit.Code

open X64 List Code.Stream

/-- The bytes that an item puts into the stream. Jumps put zeros, to be filled in later. -/
def Item.emitted (avx : Bool) : Item → List UInt8
  | .instr machine => machine.encode avx
  | .bytes raw => raw
  | .padding count => List.replicate count 0
  | .jump cond _ => List.replicate (placeholderSize cond) 0
  | .openNear _ => List.replicate nearSize 0
  | .enter _ | .closeNear => []

/-- Whether the bytes of an item are filled in later. -/
def Item.isPlaceholder : Item → Bool
  | .jump .. | .openNear _ => true
  | _ => false

/-- Where the item of a number starts: behind all items before it. -/
def startOf (avx : Bool) (items : List Item) (k : Nat) : Nat :=
  ((items.take k).flatMap (Item.emitted avx)).length

/-- The first closing after item `k` is item `j`. -/
def ClosedBy (items : List Item) (k j : Nat) : Prop :=
  k < j ∧ items[j]? = some .closeNear ∧ ∀ m, k < m → m < j → items[m]? ≠ some .closeNear

section Positions

variable {avx : Bool} {items : List Item} {item : Item} {k : Nat}

variable {α : Type} {a : α} {j : Nat}

theorem lt_length {items : List α} (hk : items[k]? = some a) : k < items.length :=
  (List.getElem?_eq_some_iff.mp hk).1

theorem startOf_append (avx : Bool) (more : List Item) (hk : k ≤ items.length) :
    startOf avx (items ++ more) k = startOf avx items k := by
  rw [startOf, startOf, take_append_of_le_length hk]

theorem startOf_length (avx : Bool) (items : List Item) :
    startOf avx items items.length = (items.flatMap (Item.emitted avx)).length := by
  rw [startOf, take_length]

theorem startOf_succ (avx : Bool) (hk : items[k]? = some item) :
    startOf avx items (k + 1) = startOf avx items k + (item.emitted avx).length := by
  rw [startOf, startOf, take_add_one, hk]
  simp

theorem startOf_mono (avx : Bool) (items : List Item) (hle : k ≤ j) :
    startOf avx items k ≤ startOf avx items j := by
  obtain ⟨n, rfl⟩ := Nat.exists_eq_add_of_le hle
  rw [startOf, startOf, take_add, flatMap_append, length_append]
  exact Nat.le_add_right ..

/-- An item ends before the items behind it start. -/
theorem stop_le_startOf (avx : Bool) (hk : items[k]? = some item) (hlt : k < j) :
    startOf avx items k + (item.emitted avx).length ≤ startOf avx items j :=
  startOf_succ avx hk ▸ startOf_mono avx items hlt

end Positions

/-! ## What a step does -/

/-- The record of a far jump. -/
def jumpAt (position : Nat) (cond : Option Condition) (target : Nat) : Jump :=
  { target, position, condition := cond, size := placeholderSize cond }

/-- The record that an item makes at a position, if it is a far jump. -/
def Item.record (position : Nat) : Item → List Jump
  | .jump cond target => [jumpAt position cond target]
  | _ => []

namespace Stream

variable {stream next : Stream} {item : Item}

/-- What a step that succeeds does to each part of the stream. -/
structure Advances (stream : Stream) (item : Item) (next : Stream) : Prop where
  sameSet : next.avx = stream.avx
  code : next.code.toList = stream.code.toList ++ item.emitted stream.avx
  blocks : ∀ b p, next.blocks[b]? = some (some p) ↔ stream.blocks[b]? = some (some p) ∨
      item = .enter b ∧ stream.blocks[b]? = some none ∧ p = stream.position
  free : ∀ b, item = .enter b → stream.blocks[b]? = some none
  jumps : next.jumps.toList = stream.jumps.toList ++ item.record stream.position
  opens : ∀ cond, item = .openNear cond → stream.near = none ∧
    next.near = some ⟨stream.position, cond⟩ ∧ next.patches = stream.patches
  closes : item = .closeNear → ∃ near patch, stream.near = some near ∧
    nearPatch near stream.position = .ok patch ∧ next.near = none ∧
      next.patches.toList = stream.patches.toList ++ [patch]
  others : (∀ cond, item ≠ .openNear cond) → item ≠ .closeNear →
    next.near = stream.near ∧ next.patches = stream.patches

theorem Advances.position_eq (hstep : Advances stream item next) :
    next.position = stream.position + (item.emitted stream.avx).length := by
  have hlength := congrArg List.length hstep.code
  simpa only [position, length_append, Array.length_toList] using hlength

theorem advances_append (bytes : List UInt8) (hbytes : item.emitted stream.avx = bytes)
    (henter : ∀ b, item ≠ .enter b) (hjump : ∀ cond target, item ≠ .jump cond target)
    (hopen : ∀ cond, item ≠ .openNear cond) (hclose : item ≠ .closeNear) :
    Advances stream item (stream.append bytes) := by
  refine ⟨rfl, by simp [append, hbytes], fun b p => ?_, fun b hb => absurd hb (henter b), ?_,
    fun cond hitem => absurd hitem (hopen cond), fun hitem => absurd hitem hclose,
    fun _ _ => ⟨rfl, rfl⟩⟩
  · exact ⟨.inl, fun h => h.resolve_right fun hitem => henter b hitem.1⟩
  · have hrecord : item.record stream.position = [] := by
      cases item <;> first | rfl | exact absurd rfl (hjump _ _)
    simp [append, hrecord]

theorem attempt_eq_ok {result : Except CompileError Stream}
    (hattempt : stream.attempt result = (next, .ok ())) : result = .ok next := by
  cases result with
  | error cause => cases hattempt
  | ok found =>
    cases hattempt
    rfl

theorem attempt_eq_error {result : Except CompileError Stream} {cause : CompileError}
    (hattempt : (stream.attempt result).2 = .error cause) : (stream.attempt result).1 = stream := by
  cases result with
  | error cause => rfl
  | ok found => cases hattempt

theorem advances_enter {b : Nat} (henter : stream.enter b = .ok next) :
    Advances stream (.enter b) next := by
  unfold enter at henter
  split at henter
  next => cases henter
  next => cases henter
  next hfree =>
    cases henter
    refine ⟨rfl, by simp [Item.emitted], fun c p => ?_, fun c hc => ?_,
      by simp [Item.record], by simp, by simp, fun _ _ => ⟨rfl, rfl⟩⟩
    · obtain ⟨hlt, -⟩ := Array.getElem?_eq_some_iff.mp hfree
      rw [Array.getElem?_setIfInBounds]
      by_cases hbc : b = c
      · subst hbc
        rw [if_pos rfl, if_pos hlt, hfree]
        simp [eq_comm]
      · simp [hbc]
    · cases hc
      exact hfree

theorem advances_jump (stream : Stream) (cond : Option Condition) (target : Nat) :
    Advances stream (.jump cond target) (stream.jump cond target) := by
  refine ⟨rfl, by simp [jump, pad, append, Item.emitted], fun b p => ?_, by simp, ?_, by simp,
    by simp, fun _ _ => ⟨rfl, rfl⟩⟩
  · exact ⟨.inl, fun h => h.resolve_right fun hitem => nomatch hitem.1⟩
  · simp [jump, pad, append, jumpAt, Item.record]

theorem advances_openNear {cond : Condition} (hopen : stream.openNear cond = .ok next) :
    Advances stream (.openNear cond) next := by
  unfold openNear at hopen
  split at hopen
  next => cases hopen
  next hnone =>
    cases hopen
    refine ⟨rfl, by simp [pad, append, Item.emitted], fun b p => ?_, by simp,
      by simp [pad, append, Item.record], ?_, by simp, fun hother => absurd rfl (hother cond)⟩
    · exact ⟨.inl, fun h => h.resolve_right fun hitem => nomatch hitem.1⟩
    · intro other hitem
      cases hitem
      exact ⟨hnone, rfl, rfl⟩

theorem advances_closeNear (hclose : stream.closeNear = (next, .ok ())) :
    Advances stream .closeNear next := by
  unfold closeNear at hclose
  split at hclose
  next => cases hclose
  next near hnear =>
    dsimp only at hclose
    split at hclose
    next => cases hclose
    next patch hpatch =>
      cases hclose
      refine ⟨rfl, by simp [Item.emitted], fun b p => ?_, by simp, by simp [Item.record],
        by simp, fun _ => ?_, fun _ hother => absurd rfl hother⟩
      · exact ⟨.inl, fun h => h.resolve_right fun hitem => nomatch hitem.1⟩
      · exact ⟨near, patch, hnear, hpatch, rfl, by simp⟩

/-- What a step can do. -/
theorem advances_of_step (hstep : stream.step item = (next, .ok ())) :
    Advances stream item next := by
  cases item with
  | instr _ | bytes _ | padding _ =>
    cases hstep
    exact advances_append _ rfl (by simp) (by simp) (by simp) (by simp)
  | enter block => exact advances_enter (attempt_eq_ok hstep)
  | jump cond target =>
    cases hstep
    exact advances_jump stream cond target
  | openNear cond => exact advances_openNear (attempt_eq_ok hstep)
  | closeNear => exact advances_closeNear hstep

/-- The stream after all steps, where a step that fails is followed by the next one. -/
def carryOn (stream : Stream) (items : List Item) : Stream :=
  items.foldl (fun stream item => (stream.step item).1) stream

variable {stream : Stream} {item : Item}

/-- What a step does to the stream, whether it fails or not. -/
structure Moves (stream : Stream) (item : Item) (next : Stream) : Prop where
  sameSet : next.avx = stream.avx
  code : ∃ bytes, next.code.toList = stream.code.toList ++ bytes
  blocks : ∀ b p, next.blocks[b]? = some (some p) →
    stream.blocks[b]? = some (some p) ∨ item = .enter b ∧ p = stream.position
  jumps : next.jumps.toList = stream.jumps.toList ++ item.record stream.position
  near : (item ≠ .closeNear ∧ next.near = stream.near) ∨ (item = .closeNear ∧ next.near = none) ∨
    ∃ cond, item = .openNear cond ∧ stream.near = none ∧
      next.near = some ⟨stream.position, cond⟩
  patches : next.patches.toList = stream.patches.toList ∨
    item = .closeNear ∧ ∃ near patch, stream.near = some near ∧
      nearPatch near stream.position = .ok patch ∧
      next.patches.toList = stream.patches.toList ++ [patch]

theorem Advances.moves (hadv : Advances stream item next) :
    Moves stream item next where
  sameSet := hadv.sameSet
  code := ⟨_, hadv.code⟩
  blocks b p hblock := by
    rcases (hadv.blocks b p).mp hblock with hsame | ⟨henter, -, hpos⟩
    · exact .inl hsame
    · exact .inr ⟨henter, hpos⟩
  jumps := hadv.jumps
  near := by
    cases item with
    | closeNear =>
      obtain ⟨-, -, -, -, hnone, -⟩ := hadv.closes rfl
      exact .inr (.inl ⟨rfl, hnone⟩)
    | openNear cond =>
      obtain ⟨hnone, hopened, -⟩ := hadv.opens cond rfl
      exact .inr (.inr ⟨cond, rfl, hnone, hopened⟩)
    | _ => exact .inl ⟨Item.noConfusion, (hadv.others (by simp) Item.noConfusion).1⟩
  patches := by
    cases item with
    | closeNear =>
      obtain ⟨near, patch, hnear, hpatch, -, hpatches⟩ := hadv.closes rfl
      exact .inr ⟨rfl, near, patch, hnear, hpatch, hpatches⟩
    | openNear cond => exact .inl (congrArg Array.toList (hadv.opens cond rfl).2.2)
    | _ => exact .inl (congrArg Array.toList (hadv.others (by simp) Item.noConfusion).2)

/-- A step that leaves the stream alone. -/
theorem Moves.stall (hclose : item ≠ .closeNear ∨ stream.near = none)
    (hrecord : item.record stream.position = []) : Moves stream item stream where
  sameSet := rfl
  code := ⟨[], (append_nil _).symm⟩
  blocks _ _ := .inl
  jumps := by rw [hrecord, append_nil]
  near := by
    by_cases hitem : item = .closeNear
    · exact .inr (.inl ⟨hitem, hclose.resolve_left (not_not_intro hitem)⟩)
    · exact .inl ⟨hitem, rfl⟩
  patches := .inl rfl

theorem moves_step (stream : Stream) (item : Item) : Moves stream item (stream.step item).1 := by
  cases hanswer : (stream.step item).2 with
  | ok done => exact (advances_of_step (Prod.ext rfl hanswer)).moves
  | error cause =>
    cases item with
    | instr | bytes | padding | jump => cases hanswer
    | enter _ | openNear _ =>
      rw [step, attempt_eq_error hanswer]
      exact .stall (.inl Item.noConfusion) rfl
    | closeNear =>
      simp only [step, closeNear] at hanswer ⊢
      split
      next hnone => exact .stall (.inr hnone) rfl
      next near hnear =>
        simp only [hnear] at hanswer
        split
        next => exact ⟨rfl, ⟨[], (append_nil _).symm⟩, fun _ _ => .inl,
          (append_nil _).symm, .inr (.inl ⟨rfl, rfl⟩), .inl rfl⟩
        next patch hpatch => simp [hpatch] at hanswer

/-- Closing an open near jump fails exactly if there is no patch for it. -/
theorem closeNear_fails_iff {near : NearJump} (hnear : stream.near = some near) :
    (∃ cause, (stream.step .closeNear).2 = .error cause) ↔
      ∃ cause, nearPatch near stream.position = .error cause := by
  simp only [step, closeNear, hnear]
  cases nearPatch near stream.position <;> simp

theorem append_append (stream : Stream) (first second : List UInt8) :
    (stream.append first).append second = stream.append (first ++ second) := by
  simp only [append]
  congr 1
  apply Array.ext'
  simp

end Stream

/-! ## Pending instructions -/

theorem fitsWord_toInt (off : BitVec 32) : fitsWord off.toInt = true := by
  have hlow := off.le_toInt
  have hhigh := off.toInt_lt
  have hword : twoPow (32 - 1) = 2147483648 := rfl
  rw [fitsWord, fitsSigned, hword, decide_eq_true_iff]
  omega

/-- Jumps that are emitted at once have the bytes of the instruction. -/
theorem of_branch? {instr : Instr} {result : Except EncodingError (List UInt8)}
    (hbranch : instr.branch? = some result) (avx : Bool) : result = .ok (instr.encode avx) := by
  have hlong (opcode : List UInt8) (off : BitVec 32) :
      longForm opcode off.toInt = .ok (opcode ++ littleEndian off 4) := by
    rw [longForm, if_pos (fitsWord_toInt off), BitVec.ofInt_toInt]
  cases instr with
  | jmp off =>
    cases hbranch
    rw [shortestJmp, longJmp, hlong]
    exact (apply_ite Except.ok ..).symm
  | jcc cond off =>
    cases hbranch
    rw [shortestJcc, longJcc, hlong]
    exact (apply_ite Except.ok ..).symm
  | _ => cases hbranch

namespace Buffer

theorem flush_mk (stream : Stream) : flush { stream } = stream := by
  simp [flush, append]

/-- The stream sees nothing of what is pending. -/
theorem flush_step (buffer : Buffer) (item : Item) :
    (buffer.step item).1.flush = (buffer.flush.step item).1 ∧
      (buffer.step item).2 = (buffer.flush.step item).2 := by
  cases item with
  | instr instr =>
    cases hbranch : instr.branch? with
    | none =>
      simp only [step, hbranch, flush, Array.toList_push, flatMap_append, flatMap_singleton,
        ← append_append]
      exact ⟨rfl, rfl⟩
    | some result =>
      obtain rfl := of_branch? hbranch buffer.stream.avx
      simp only [step, hbranch]
      exact ⟨flush_mk _, rfl⟩
  | _ => exact ⟨flush_mk _, rfl⟩

theorem flush_emit (buffer : Buffer) (items : List Item) :
    (buffer.emit items).map flush = buffer.flush.emit items := by
  induction items generalizing buffer with
  | nil => rfl
  | cons item items ih =>
    obtain ⟨hstream, hresult⟩ := flush_step buffer item
    rw [emit, Stream.emit, ← Prod.eta (buffer.step item), ← Prod.eta (buffer.flush.step item),
      ← hstream, ← hresult]
    cases (buffer.step item).2 with
    | ok done => exact ih _
    | error cause => rfl

theorem emit_new (avx : Bool) (count : Nat) (items : List Item) :
    ((new avx count).emit items).map flush = (Stream.new avx count).emit items := by
  rw [flush_emit, new, flush_mk]

end Buffer

/-! ## The course of a run -/

/-- The stream before the step of a number. -/
def standing (avx : Bool) (count : Nat) (items : List Item) (k : Nat) : Stream :=
  (Stream.new avx count).carryOn (items.take k)

/-- Where the stream stands before the step of a number. -/
def placeOf (avx : Bool) (count : Nat) (items : List Item) (k : Nat) : Nat :=
  (standing avx count items k).position

/-- Item `k` opens a near jump, so that its placeholder is in the stream. -/
def Opens (avx : Bool) (count : Nat) (items : List Item) (k : Nat) (cond : Condition) : Prop :=
  items[k]? = some (.openNear cond) ∧ (standing avx count items k).near = none

/-- Item `j` closes a near jump that is open but has become too long. -/
def Overruns (avx : Bool) (count : Nat) (items : List Item) (j : Nat) : Prop :=
  items[j]? = some .closeNear ∧ (standing avx count items j).near.isSome ∧
    ∃ cause, ((standing avx count items j).step .closeNear).2 = .error cause

section Course

variable {avx : Bool} {count : Nat} {items : List Item} {item : Item} {cond : Condition}
  {k j n : Nat}

theorem standing_succ (hk : items[k]? = some item) :
    standing avx count items (k + 1) = ((standing avx count items k).step item).1 := by
  rw [standing, standing, take_add_one, hk]
  simp [carryOn]

theorem standing_length (avx : Bool) (count : Nat) (items : List Item) :
    standing avx count items items.length = (Stream.new avx count).carryOn items := by
  rw [standing, take_length]

/-- The step of a number. -/
theorem exists_moves (avx : Bool) (count : Nat) (hn : n < items.length) :
    ∃ item, items[n]? = some item ∧
      Stream.Moves (standing avx count items n) item (standing avx count items (n + 1)) := by
  have hitem := getElem?_eq_getElem hn
  refine ⟨items[n], hitem, ?_⟩
  rw [standing_succ hitem]
  exact moves_step _ _

theorem avx_standing (hn : n ≤ items.length) : (standing avx count items n).avx = avx := by
  induction n with
  | zero => rfl
  | succ n ih =>
    obtain ⟨item, -, hmoves⟩ := exists_moves avx count hn
    rw [hmoves.sameSet, ih (by omega)]

theorem exists_code_append (hkn : k ≤ n) (hn : n ≤ items.length) :
    ∃ bytes, (standing avx count items n).code.toList
      = (standing avx count items k).code.toList ++ bytes := by
  induction n, hkn using Nat.le_induction with
  | base => exact ⟨[], (append_nil _).symm⟩
  | succ n hkn ih =>
    obtain ⟨bytes, hbytes⟩ := ih (by omega)
    obtain ⟨item, -, hmoves⟩ := exists_moves avx count hn
    obtain ⟨more, hmore⟩ := hmoves.code
    exact ⟨bytes ++ more, by rw [hmore, hbytes, append_assoc]⟩

theorem placeOf_mono (hkn : k ≤ n) (hn : n ≤ items.length) :
    placeOf avx count items k ≤ placeOf avx count items n := by
  obtain ⟨bytes, hbytes⟩ := @exists_code_append avx count items k n hkn hn
  have hlength := congrArg List.length hbytes
  rw [length_append, Array.length_toList, Array.length_toList] at hlength
  exact Nat.le_of_add_right_le (Nat.le_of_eq hlength.symm)

theorem advances_jump_standing {far : Option Condition} {target : Nat}
    (hk : items[k]? = some (.jump far target)) :
    Advances (standing avx count items k) (.jump far target)
      (standing avx count items (k + 1)) := by
  rw [standing_succ hk]
  exact advances_jump _ far target

theorem Opens.advances (hopens : Opens avx count items k cond) :
    Advances (standing avx count items k) (.openNear cond)
      (standing avx count items (k + 1)) := by
  rw [standing_succ hopens.1]
  apply advances_of_step
  simp [Stream.step, attempt, Stream.openNear, hopens.2]

theorem placeOf_succ (hadv : Advances (standing avx count items k) item
      (standing avx count items (k + 1))) (hk : k ≤ items.length) :
    placeOf avx count items (k + 1) = placeOf avx count items k + (item.emitted avx).length := by
  rw [placeOf, hadv.position_eq, avx_standing hk, placeOf]

/-- Near jumps stay open until they are closed. -/
theorem Opens.near_eq (hopens : Opens avx count items k cond) (hkn : k < n)
    (hn : n ≤ items.length) (hfree : ∀ m, k < m → m < n → items[m]? ≠ some .closeNear) :
    (standing avx count items n).near = some ⟨placeOf avx count items k, cond⟩ := by
  induction n, hkn using Nat.le_induction with
  | base => exact (hopens.advances.opens cond rfl).2.1
  | succ n hkn ih =>
    have hpend := ih (by omega) fun m hkm hmn => hfree m hkm (by omega)
    obtain ⟨item, hitem, hmoves⟩ := exists_moves avx count hn
    rcases hmoves.near with ⟨-, hsame⟩ | ⟨hclose, -⟩ | ⟨-, -, hnone, -⟩
    · rw [hsame, hpend]
    · exact absurd (hclose ▸ hitem) (hfree n hkn (Nat.lt_succ_self n))
    · rw [hpend] at hnone
      cases hnone

section

variable (hn : n ≤ items.length)
include hn

/-- An open near jump was opened by an item, and nothing has closed it since. -/
theorem exists_opens {near : NearJump} (hnear : (standing avx count items n).near = some near) :
    ∃ k < n, Opens avx count items k near.condition ∧ near.position = placeOf avx count items k ∧
      ∀ m, k < m → m < n → items[m]? ≠ some .closeNear := by
  induction n generalizing near with
  | zero => cases hnear
  | succ n ih =>
    obtain ⟨item, hitem, hmoves⟩ := exists_moves avx count hn
    rcases hmoves.near with ⟨hother, hsame⟩ | ⟨-, hnone⟩ | ⟨opened, hopen, hnone, hnew⟩
    · obtain ⟨k, hk, hopens, hpos, hfree⟩ := ih (by omega) (hsame ▸ hnear)
      refine ⟨k, by omega, hopens, hpos, ?_⟩
      intro m hkm hmn
      rcases Nat.lt_succ_iff_lt_or_eq.mp hmn with hlt | rfl
      · exact hfree m hkm hlt
      · rw [hitem]
        simpa using hother
    · rw [hnone] at hnear
      cases hnear
    · rw [hnew] at hnear
      cases hnear
      refine ⟨n, Nat.lt_succ_self n, ⟨hopen ▸ hitem, hnone⟩, rfl, ?_⟩
      intro m hkm hmn
      omega

/-- The far jumps on record are those that were emitted. -/
theorem mem_jumps_standing_iff {jump : Jump} : jump ∈ (standing avx count items n).jumps.toList ↔
      ∃ k < n, ∃ far target, items[k]? = some (.jump far target) ∧
        jump = jumpAt (placeOf avx count items k) far target := by
  induction n with
  | zero => simp [standing, carryOn, Stream.new]
  | succ n ih =>
    obtain ⟨item, hitem, hmoves⟩ := exists_moves avx count hn
    rw [hmoves.jumps, mem_append, ih (by omega)]
    constructor
    · rintro (⟨k, hk, hfound⟩ | hnew)
      · exact ⟨k, by omega, hfound⟩
      · cases item with
        | jump far target =>
          exact ⟨n, Nat.lt_succ_self n, far, target, hitem, mem_singleton.mp hnew⟩
        | _ => cases hnew
    · rintro ⟨k, hk, far, target, hjump, rfl⟩
      rcases Nat.lt_succ_iff_lt_or_eq.mp hk with hlt | rfl
      · exact .inl ⟨k, hlt, far, target, hjump, rfl⟩
      · rw [hitem] at hjump
        cases hjump
        exact .inr (mem_singleton.mpr rfl)

/-- Every block on record was entered by an item. -/
theorem exists_enter_of_standing {b p : Nat}
    (hblock : (standing avx count items n).blocks[b]? = some (some p)) :
    ∃ k < n, items[k]? = some (.enter b) ∧ p = placeOf avx count items k := by
  induction n with
  | zero =>
    change (Array.replicate count (none : Option Nat))[b]? = some (some p) at hblock
    rw [Array.getElem?_replicate] at hblock
    split at hblock <;> cases hblock
  | succ n ih =>
    obtain ⟨item, hitem, hmoves⟩ := exists_moves avx count hn
    rcases hmoves.blocks b p hblock with hsame | ⟨henter, hpos⟩
    · obtain ⟨k, hk, hfound⟩ := ih (by omega) hsame
      exact ⟨k, by omega, hfound⟩
    · exact ⟨n, Nat.lt_succ_self n, henter ▸ hitem, hpos⟩

/-- Every patch is that of a near jump which was opened and closed by items. -/
theorem exists_closed_of_patch {patch : Edit}
    (hpatch : patch ∈ (standing avx count items n).patches.toList) :
    ∃ k j cond, Opens avx count items k cond ∧ ClosedBy items k j ∧
      nearPatch ⟨placeOf avx count items k, cond⟩ (placeOf avx count items j) = .ok patch := by
  induction n with
  | zero => cases hpatch
  | succ n ih =>
    obtain ⟨item, hitem, hmoves⟩ := exists_moves avx count hn
    rcases hmoves.patches with hsame | ⟨hclose, near, found, hnear, hfound, hnew⟩
    · exact ih (by omega) (hsame ▸ hpatch)
    · rw [hnew, mem_append, mem_singleton] at hpatch
      rcases hpatch with hpatch | rfl
      · exact ih (by omega) hpatch
      · obtain ⟨k, hk, hopens, hpos, hfree⟩ := exists_opens (by omega) hnear
        refine ⟨k, n, near.condition, hopens, ⟨hk, hclose ▸ hitem, hfree⟩, ?_⟩
        rw [← hpos]
        exact hfound

end

theorem mem_patches_of_le (hkn : k ≤ n) (hn : n ≤ items.length) {patch : Edit}
    (hpatch : patch ∈ (standing avx count items k).patches.toList) :
    patch ∈ (standing avx count items n).patches.toList := by
  induction n, hkn using Nat.le_induction with
  | base => exact hpatch
  | succ n hkn ih =>
    have hkept := ih (by omega)
    obtain ⟨item, -, hmoves⟩ := exists_moves avx count hn
    rcases hmoves.patches with hsame | ⟨-, -, patch, -, -, hnew⟩
    · rwa [hsame]
    · rw [hnew]
      exact mem_append_left _ hkept

/-- In code that has no near jump left open, each has been closed. -/
theorem Opens.exists_closedBy (hopens : Opens avx count items k cond)
    (hnone : ((Stream.new avx count).carryOn items).near = none) : ∃ j, ClosedBy items k j := by
  by_cases hlater : ∃ j, k < j ∧ items[j]? = some .closeNear
  · classical
    obtain ⟨hkj, hclose⟩ := Nat.find_spec hlater
    refine ⟨Nat.find hlater, hkj, hclose, ?_⟩
    intro m hkm hm hearlier
    exact Nat.find_min hlater hm ⟨hkm, hearlier⟩
  · rw [← standing_length, hopens.near_eq (lt_length hopens.1) (Nat.le_refl _)
      fun m hkm _ hclose => hlater ⟨m, hkm, hclose⟩] at hnone
    cases hnone

/-- A near jump whose closing did not fail has its patch. -/
theorem Opens.exists_patch (hopens : Opens avx count items k cond)
    (hclosed : ClosedBy items k j) (hfits : ¬Overruns avx count items j) :
    ∃ patch ∈ ((Stream.new avx count).carryOn items).patches.toList,
      nearPatch ⟨placeOf avx count items k, cond⟩ (placeOf avx count items j) = .ok patch := by
  have hj := lt_length hclosed.2.1
  have hpend := hopens.near_eq hclosed.1 hj.le hclosed.2.2
  have hdone : ¬∃ cause, nearPatch ⟨placeOf avx count items k, cond⟩
      (placeOf avx count items j) = .error cause := by
    rintro ⟨cause, hcause⟩
    exact hfits ⟨hclosed.2.1, by rw [hpend]; rfl,
      (closeNear_fails_iff hpend).mpr ⟨cause, hcause⟩⟩
  cases hpatch : nearPatch ⟨placeOf avx count items k, cond⟩ (placeOf avx count items j) with
  | error cause => exact absurd ⟨cause, hpatch⟩ hdone
  | ok patch =>
    refine ⟨patch, ?_, rfl⟩
    rw [← standing_length]
    apply mem_patches_of_le hj (Nat.le_refl _)
    rw [standing_succ hclosed.2.1]
    have hanswer : ((standing avx count items j).step .closeNear).2 = .ok () := by
      simp only [Stream.step, Stream.closeNear, hpend]
      rw [show nearPatch _ (standing avx count items j).position = .ok patch from hpatch]
    obtain ⟨near, found, hnear, hfound, -, hpatches⟩ :=
      (advances_of_step (Prod.ext rfl hanswer)).closes rfl
    rw [hpend] at hnear
    cases hnear
    cases hpatch.symm.trans hfound
    rw [hpatches]
    exact mem_append_right _ (mem_singleton_self patch)

/-- A placeholder lies clear of what other items put into the stream. -/
theorem placeOf_apart {other : Item}
    (hk : Advances (standing avx count items k) item (standing avx count items (k + 1)))
    (hj : Advances (standing avx count items j) other (standing avx count items (j + 1)))
    (hkLength : k < items.length) (hjLength : j < items.length) (hne : k ≠ j) :
    placeOf avx count items k + (item.emitted avx).length ≤ placeOf avx count items j ∨
      placeOf avx count items j + (other.emitted avx).length ≤ placeOf avx count items k := by
  rw [← placeOf_succ hk (by omega), ← placeOf_succ hj (by omega)]
  rcases Nat.lt_or_gt_of_ne hne with hlt | hgt
  · exact .inl (placeOf_mono hlt (by omega))
  · exact .inr (placeOf_mono hgt (by omega))

end Course

/-! ## Emission without failures -/

/-- A stream holds what its items put there. -/
structure Laid (avx : Bool) (count : Nat) (items : List Item) (stream : Stream) : Prop where
  code : stream.code.toList = items.flatMap (Item.emitted avx)
  blocks : ∀ b p, stream.blocks[b]? = some (some p) ↔
    ∃ k, items[k]? = some (.enter b) ∧ p = startOf avx items k
  once : ∀ b k j : Nat, items[k]? = some (.enter b) → items[j]? = some (.enter b) → k = j
  jumps : ∀ jump, jump ∈ stream.jumps.toList ↔ ∃ k cond target,
    items[k]? = some (.jump cond target) ∧ jump = jumpAt (startOf avx items k) cond target
  patches : ∀ patch ∈ stream.patches.toList, ∃ k j cond,
    items[k]? = some (.openNear cond) ∧ ClosedBy items k j ∧
      nearPatch ⟨startOf avx items k, cond⟩ (startOf avx items j) = .ok patch
  closed : stream.near = none → ∀ k cond, items[k]? = some (.openNear cond) →
    ∃ j patch, ClosedBy items k j ∧ patch ∈ stream.patches.toList ∧
      nearPatch ⟨startOf avx items k, cond⟩ (startOf avx items j) = .ok patch

theorem Laid.position_eq {avx : Bool} {count : Nat} {items : List Item} {stream : Stream}
    (hlaid : Laid avx count items stream) : stream.position = startOf avx items items.length := by
  rw [startOf_length, ← hlaid.code, Array.length_toList]
  rfl

/-- Each step of an emission that succeeds has succeeded. -/
theorem steps_of_emit {stream last : Stream} {items : List Item}
    (hemit : stream.emit items = .ok last) :
    last = stream.carryOn items ∧ ∀ k item, items[k]? = some item →
      ((stream.carryOn (items.take k)).step item).2 = .ok () := by
  induction items generalizing stream with
  | nil =>
    cases hemit
    exact ⟨rfl, by simp⟩
  | cons first rest ih =>
    rw [Stream.emit] at hemit
    split at hemit
    next next hstep =>
      obtain rfl : (stream.step first).1 = next := congrArg Prod.fst hstep
      obtain ⟨hlast, hrest⟩ := ih hemit
      refine ⟨hlast, fun k item hitem => ?_⟩
      cases k with
      | zero =>
        cases hitem
        exact congrArg Prod.snd hstep
      | succ k => exact hrest k item hitem
    next => cases hemit

section Emission

variable {avx : Bool} {count : Nat} {items : List Item} {stream : Stream} {item : Item} {k j n b : Nat}
  (hemit : (Stream.new avx count).emit items = .ok stream)
include hemit

theorem advances_standing (hk : items[k]? = some item) :
    Advances (standing avx count items k) item (standing avx count items (k + 1)) := by
  rw [standing_succ hk]
  exact advances_of_step (Prod.ext rfl ((steps_of_emit hemit).2 k item hk))

theorem code_standing (hn : n ≤ items.length) :
    (standing avx count items n).code.toList = (items.take n).flatMap (Item.emitted avx) := by
  induction n with
  | zero => rfl
  | succ n ih =>
    have hitem := getElem?_eq_getElem hn
    rw [(advances_standing hemit hitem).code, ih (by omega), avx_standing (by omega), take_add_one,
      hitem, flatMap_append, Option.toList_some, flatMap_singleton]

/-- Items stand where those before them end. -/
theorem placeOf_eq_startOf (hn : n ≤ items.length) :
    placeOf avx count items n = startOf avx items n := by
  rw [startOf, ← code_standing hemit hn, Array.length_toList]
  rfl

theorem blocks_of_enter (hk : items[k]? = some (.enter b)) (hkn : k < n) (hn : n ≤ items.length) :
    (standing avx count items n).blocks[b]? = some (some (placeOf avx count items k)) := by
  induction n, hkn using Nat.le_induction with
  | base =>
    have hadv := advances_standing hemit hk
    exact (hadv.blocks b _).mpr (.inr ⟨rfl, hadv.free b rfl, rfl⟩)
  | succ n hkn ih =>
    have hadv := advances_standing hemit (getElem?_eq_getElem hn)
    exact (hadv.blocks b _).mpr (.inl (ih (by omega)))

/-- A block that is entered has no start yet, so no earlier item can have entered it. -/
theorem not_lt_of_enter (hk : items[k]? = some (.enter b)) (hj : items[j]? = some (.enter b)) :
    ¬k < j := by
  intro hlt
  have hstarted := blocks_of_enter hemit hk hlt (lt_length hj).le
  rw [(advances_standing hemit hj).free b rfl] at hstarted
  cases hstarted

theorem laid_of_emit : Laid avx count items stream := by
  obtain ⟨rfl, hsteps⟩ := steps_of_emit hemit
  rw [← standing_length]
  have hplace {k : Nat} {item : Item} (hk : items[k]? = some item) :=
    placeOf_eq_startOf hemit (lt_length hk).le
  constructor
  · rw [code_standing hemit (Nat.le_refl _), take_length]
  · refine fun b p => ⟨fun hblock => ?_, ?_⟩
    · obtain ⟨k, hk, henter, rfl⟩ := exists_enter_of_standing (Nat.le_refl _) hblock
      exact ⟨k, henter, hplace henter⟩
    · rintro ⟨k, hk, rfl⟩
      rw [← hplace hk]
      exact blocks_of_enter hemit hk (lt_length hk) (Nat.le_refl _)
  · intro b k j hk hj
    exact Nat.le_antisymm (Nat.not_lt.mp (not_lt_of_enter hemit hj hk))
      (Nat.not_lt.mp (not_lt_of_enter hemit hk hj))
  · intro jump
    rw [mem_jumps_standing_iff (Nat.le_refl _)]
    constructor
    · rintro ⟨k, -, far, target, hk, rfl⟩
      exact ⟨k, far, target, hk, by rw [hplace hk]⟩
    · rintro ⟨k, far, target, hk, rfl⟩
      exact ⟨k, lt_length hk, far, target, hk, by rw [hplace hk]⟩
  · intro patch hpatch
    obtain ⟨k, j, cond, hopens, hclosed, hfound⟩ :=
      exists_closed_of_patch (Nat.le_refl _) hpatch
    rw [hplace hopens.1, hplace hclosed.2.1] at hfound
    exact ⟨k, j, cond, hopens.1, hclosed, hfound⟩
  · intro hnone k cond hk
    have hopens : Opens avx count items k cond :=
      ⟨hk, ((advances_standing hemit hk).opens cond rfl).1⟩
    rw [standing_length] at hnone ⊢
    obtain ⟨j, hclosed⟩ := hopens.exists_closedBy hnone
    have hfits : ¬Overruns avx count items j := by
      rintro ⟨-, -, cause, hcause⟩
      cases (hsteps j _ hclosed.2.1).symm.trans hcause
    obtain ⟨patch, hmem, hpatch⟩ := hopens.exists_patch hclosed hfits
    rw [hplace hk, hplace hclosed.2.1] at hpatch
    exact ⟨j, patch, hclosed, hmem, hpatch⟩

end Emission

end GraphJit.Code
