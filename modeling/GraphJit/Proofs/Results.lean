import GraphJit.Error
import Mathlib.Data.List.Nodup
import Mathlib.Tactic.Common

/-! # Computations that may fail

When a chain of computations, or a pass over a list, goes through, and what is found in
a table without double keys.
-/

namespace GraphJit

open List

variable {ε α β : Type} {items : List α}

theorem bind_eq_ok {first : Except ε α} {next : α → Except ε β} {b : β} :
    (first >>= next) = .ok b ↔ ∃ a, first = .ok a ∧ next a = .ok b := by
  cases first <;> simp [bind, Except.bind]

/-- A chain that goes through does so at its first step, and then at the rest. -/
theorem of_bind {first : Except ε α} {next : α → Except ε β} {b : β}
    (hrun : (first >>= next) = .ok b) : ∃ a, first = .ok a ∧ next a = .ok b :=
  bind_eq_ok.mp hrun

theorem map_eq_ok {answer : α → β} {result : Except ε α} {b : β} :
    result.map answer = .ok b ↔ ∃ a, result = .ok a ∧ answer a = b := by
  cases result <;> simp [Except.map]

theorem forM_eq_ok {check : α → Except ε Unit} :
    items.forM check = .ok () ↔ ∀ a ∈ items, check a = .ok () := by
  induction items with
  | nil => simp [pure, Except.pure]
  | cons a rest ih =>
    change (check a >>= fun _ => rest.forM check) = .ok () ↔ _
    rw [bind_eq_ok, forall_mem_cons, ← ih]
    exact ⟨fun ⟨_, ha, hrest⟩ => ⟨ha, hrest⟩, fun ⟨ha, hrest⟩ => ⟨(), ha, hrest⟩⟩

theorem exists_mem_of_forall₂ {related : α → β → Prop} {others : List β} {b : β}
    (hall : Forall₂ related items others) (hb : b ∈ others) : ∃ a ∈ items, related a b := by
  induction hall with
  | nil => cases hb
  | @cons a _ _ _ hfirst _ ih =>
    rcases mem_cons.mp hb with rfl | hb
    · exact ⟨a, mem_cons_self, hfirst⟩
    · obtain ⟨other, hother, hrel⟩ := ih hb
      exact ⟨other, .tail _ hother, hrel⟩

theorem mapM_eq_ok {step : α → Except ε β} (answer : α → β)
    (hstep : ∀ a ∈ items, step a = .ok (answer a)) : items.mapM step = .ok (items.map answer) := by
  induction items with
  | nil => rfl
  | cons a rest ih =>
    rw [mapM_cons, hstep a mem_cons_self, ih fun b hb => hstep b (.tail _ hb)]
    rfl

/-- A pass over a list that goes through does so at every item. -/
theorem of_mapM_eq_ok {step : α → Except ε β} {answers : List β}
    (hrun : items.mapM step = .ok answers) : ∀ a ∈ items, ∃ b, step a = .ok b := by
  induction items generalizing answers with
  | nil => simp
  | cons a rest ih =>
    rw [mapM_cons, bind_eq_ok] at hrun
    obtain ⟨b, ha, hrest⟩ := hrun
    obtain ⟨bs, hbs, -⟩ := of_bind hrest
    exact forall_mem_cons.mpr ⟨⟨b, ha⟩, ih hbs⟩

/-- A pass over a list keeps what each of its steps keeps. -/
theorem foldlM_keeps {σ : Type} {step : σ → α → Except ε σ} (keeps : σ → Prop)
    (hstep : ∀ {state next a}, step state a = .ok next → keeps state → keeps next) {state last : σ}
    (hrun : items.foldlM step state = .ok last) (hstate : keeps state) : keeps last := by
  induction items generalizing state with
  | nil =>
    cases hrun
    exact hstate
  | cons a rest ih =>
    rw [foldlM_cons] at hrun
    obtain ⟨next, hnext, hrest⟩ := of_bind hrun
    exact ih hrest (hstep hnext hstate)

/-- It goes through, or fails in one of the ways allowed. -/
def FailsOnly (allowed : ε → Prop) (result : Except ε α) : Prop :=
  ∀ cause, result = .error cause → allowed cause

section FailsOnly

variable {allowed : ε → Prop}

theorem failsOnly_ok (a : α) : FailsOnly allowed (.ok a) := by
  rintro cause ⟨⟩

theorem failsOnly_error {cause : ε} (hcause : allowed cause) :
    FailsOnly allowed (.error cause : Except ε α) := by
  rintro cause ⟨⟩
  exact hcause

namespace FailsOnly

theorem bind {first : Except ε α} {next : α → Except ε β} (hfirst : FailsOnly allowed first)
    (hnext : ∀ a, first = .ok a → FailsOnly allowed (next a)) :
    FailsOnly allowed (first >>= next) := by
  cases first with
  | ok a => exact hnext a rfl
  | error cause => exact failsOnly_error (hfirst cause rfl)

theorem ite {cond : Prop} [Decidable cond] {first second : Except ε α}
    (hfirst : FailsOnly allowed first) (hsecond : FailsOnly allowed second) :
    FailsOnly allowed (if cond then first else second) := by
  split
  · exact hfirst
  · exact hsecond

theorem foldlM {step : β → α → Except ε β} {state : β}
    (hstep : ∀ state, ∀ a ∈ items, FailsOnly allowed (step state a)) :
    FailsOnly allowed (items.foldlM step state) := by
  induction items generalizing state with
  | nil => exact failsOnly_ok state
  | cons a rest ih =>
    rw [foldlM_cons]
    refine (hstep state a mem_cons_self).bind fun _ _ => ?_
    exact ih fun state b hb => hstep state b (.tail _ hb)

theorem forM {check : α → Except ε Unit}
    (hcheck : ∀ a ∈ items, FailsOnly allowed (check a)) : FailsOnly allowed (items.forM check) := by
  induction items with
  | nil => exact failsOnly_ok ()
  | cons a rest ih =>
    rw [forall_mem_cons] at hcheck
    exact hcheck.1.bind fun _ _ => ih hcheck.2

theorem mapM {step : α → Except ε β}
    (hstep : ∀ a ∈ items, FailsOnly allowed (step a)) : FailsOnly allowed (items.mapM step) := by
  induction items with
  | nil => exact failsOnly_ok []
  | cons a rest ih =>
    rw [forall_mem_cons] at hstep
    rw [mapM_cons]
    exact hstep.1.bind fun _ _ => (ih hstep.2).bind fun _ _ => failsOnly_ok _

end FailsOnly

end FailsOnly

/-- A pass over a list either goes through, keeping an invariant, or stops at an item that is
known to be bad. -/
theorem foldlM_cases {σ : Type} {step : σ → α → Except ε σ} (keeps : σ → Prop) (bad : α → Prop)
    {state : σ} (hstate : keeps state) (hstep : ∀ state, keeps state → ∀ a ∈ items,
      (∃ next, step state a = .ok next ∧ keeps next ∧ ¬bad a) ∨
        (∃ cause, step state a = .error cause) ∧ bad a) :
    (∃ last, items.foldlM step state = .ok last ∧ keeps last ∧ ∀ a ∈ items, ¬bad a) ∨
      (∃ cause, items.foldlM step state = .error cause) ∧ ∃ a ∈ items, bad a := by
  induction items generalizing state with
  | nil => exact .inl ⟨state, rfl, hstate, by simp⟩
  | cons a rest ih =>
    rw [foldlM_cons]
    rcases hstep state hstate a mem_cons_self with ⟨next, hnext, hkeeps, hgood⟩ | hfail
    · rw [hnext]
      have hrest := ih hkeeps fun state hstate b hb =>
        hstep state hstate b (.tail _ hb)
      rcases hrest with ⟨last, hlast, hdone, hall⟩ | ⟨hlast, b, hb, hbad⟩
      · exact .inl ⟨last, hlast, hdone, forall_mem_cons.mpr ⟨hgood, hall⟩⟩
      · exact .inr ⟨hlast, b, .tail _ hb, hbad⟩
    · obtain ⟨⟨cause, hcause⟩, hbad⟩ := hfail
      rw [hcause]
      exact .inr ⟨⟨cause, rfl⟩, a, mem_cons_self, hbad⟩

theorem lookup_eq_some_iff_mem [BEq α] [LawfulBEq α] {entries : List (α × β)} {key : α} {value : β}
    (hnodup : (entries.map Prod.fst).Nodup) :
    entries.lookup key = some value ↔ (key, value) ∈ entries := by
  rw [lookup_eq_some_iff]
  constructor
  · rintro ⟨before, after, rfl, -⟩
    exact mem_append_right _ mem_cons_self
  · intro hmem
    obtain ⟨before, after, rfl⟩ := append_of_mem hmem
    rw [map_append, map_cons] at hnodup
    refine ⟨before, after, rfl, fun pair hpair => bne_iff_ne.mpr fun hsame => ?_⟩
    have hbefore : key ∈ before.map Prod.fst := mem_map.mpr ⟨pair, hpair, hsame.symm⟩
    exact (nodup_middle.mp hnodup).notMem (mem_append_left _ hbefore)

/-! ## Computations without faults

A computation is without faults if it gives a result or an error. Chains of such
computations, and passes over a list, are without faults again. For a list of checks
it is said where the first fault comes up.
-/

variable {check : α → Outcome Unit} {property : α → Prop}

def Faults (outcome : Outcome α) : Prop := ∃ cause, outcome = .error (.fault cause)

def Faultless (outcome : Outcome α) : Prop := ¬Faults outcome

theorem faultless_ok (a : α) : Faultless (.ok a) := by
  rintro ⟨cause, ⟨⟩⟩

theorem faultless_error (cause : CompileError) : Faultless (.error (.error cause) : Outcome α) := by
  rintro ⟨cause, ⟨⟩⟩

theorem faultless_unsupported (cause : Unsupported) : Faultless (unsupported cause : Outcome α) :=
  faultless_error _

theorem faultless_liftM_error (result : Except CompileError α) :
    Faultless (liftM result : Outcome α) := by
  cases result with
  | ok a => exact faultless_ok a
  | error cause => exact faultless_error cause

theorem of_liftM_eq_ok {result : Except CompileError α} {a : α}
    (hlift : (liftM result : Outcome α) = .ok a) : result = .ok a := by
  cases result with
  | ok b =>
    cases hlift
    rfl
  | error cause => cases hlift

theorem liftM_eq_ok {result : Except Fault α} {a : α}
    (hlift : (liftM result : Outcome α) = .ok a) : result = .ok a := by
  cases result with
  | ok b =>
    cases hlift
    rfl
  | error fault => cases hlift

theorem faultless_liftM_encoding (result : Except EncodingError α) :
    Faultless (liftM result : Outcome α) := by
  cases result with
  | ok a => exact faultless_ok a
  | error cause => exact faultless_error (.encoding cause)

theorem faultless_liftM_fault {result : Except Fault α} {a : α} (hresult : result = .ok a) :
    Faultless (liftM result : Outcome α) :=
  hresult ▸ faultless_ok a

theorem faultless_iff {outcome : Outcome α} :
    Faultless outcome ↔ FailsOnly (fun failure => ∃ cause, failure = .error cause) outcome := by
  rcases outcome with (cause | cause) | a <;> simp [Faultless, Faults, FailsOnly]

namespace Faultless

theorem bind {first : Outcome α} {next : α → Outcome β} (hfirst : Faultless first)
    (hnext : ∀ a, first = .ok a → Faultless (next a)) : Faultless (first >>= next) :=
  faultless_iff.mpr ((faultless_iff.mp hfirst).bind fun a ha => faultless_iff.mp (hnext a ha))

theorem ite {cond : Prop} [Decidable cond] {first second : Outcome α} (hfirst : Faultless first)
    (hsecond : Faultless second) : Faultless (if cond then first else second) := by
  split
  · exact hfirst
  · exact hsecond

theorem mapM {step : α → Outcome β} (hstep : ∀ a ∈ items, Faultless (step a)) :
    Faultless (items.mapM step) :=
  faultless_iff.mpr (.mapM fun a ha => faultless_iff.mp (hstep a ha))

theorem foldlM {step : β → α → Outcome β} {state : β}
    (hstep : ∀ state, ∀ a ∈ items, Faultless (step state a)) :
    Faultless (items.foldlM step state) :=
  faultless_iff.mpr (.foldlM fun state a ha => faultless_iff.mp (hstep state a ha))

theorem forM (hcheck : ∀ a ∈ items, Faultless (check a)) : Faultless (items.forM check) :=
  faultless_iff.mpr (.forM fun a ha => faultless_iff.mp (hcheck a ha))

end Faultless

/-! ## The first fault -/

theorem faults_bind_iff {first : Outcome α} {next : α → Outcome β} :
    Faults (first >>= next) ↔ Faults first ∨ ∃ a, first = .ok a ∧ Faults (next a) := by
  cases first <;> simp [Faults, bind, Except.bind]

/-- Checks pass up to an item with a property. -/
def PassesUpTo (check : α → Outcome Unit) (property : α → Prop) (items : List α) : Prop :=
  ∃ before item after, items = before ++ item :: after ∧ (∀ a ∈ before, check a = .ok ()) ∧
    property item

theorem PassesUpTo.exists_mem
    (hpasses : PassesUpTo check property items) : ∃ a ∈ items, property a := by
  obtain ⟨before, item, after, rfl, -, hitem⟩ := hpasses
  exact ⟨item, List.mem_append_right _ List.mem_cons_self, hitem⟩

theorem PassesUpTo.cons_iff {a : α} {rest : List α} : PassesUpTo check property (a :: rest) ↔
      property a ∨ check a = .ok () ∧ PassesUpTo check property rest := by
  constructor
  · rintro ⟨before, item, after, heq, hpass, hitem⟩
    cases before with
    | nil =>
      cases heq
      exact .inl hitem
    | cons first before =>
      cases heq
      obtain ⟨hfirst, hrest⟩ := List.forall_mem_cons.mp hpass
      exact .inr ⟨hfirst, before, item, after, rfl, hrest, hitem⟩
  · rintro (ha | ⟨ha, before, item, after, rfl, hpass, hitem⟩)
    · exact ⟨[], a, rest, rfl, by simp, ha⟩
    · exact ⟨a :: before, item, after, rfl, List.forall_mem_cons.mpr ⟨ha, hpass⟩, hitem⟩

theorem PassesUpTo.congr {first second : α → Prop} (hiff : ∀ a ∈ items, first a ↔ second a) :
    PassesUpTo check first items ↔ PassesUpTo check second items := by
  unfold PassesUpTo
  refine exists_congr fun before => exists_congr fun item => exists_congr fun after => ?_
  refine and_congr_right fun heq => and_congr_right fun _ => hiff item ?_
  simp [heq]

theorem PassesUpTo.and_left_iff {fixed : Prop} :
    PassesUpTo check (fun a => fixed ∧ property a) items ↔
      fixed ∧ PassesUpTo check property items := by
  constructor
  · rintro ⟨before, item, after, heq, hpass, hfixed, hitem⟩
    exact ⟨hfixed, before, item, after, heq, hpass, hitem⟩
  · rintro ⟨hfixed, before, item, after, heq, hpass, hitem⟩
    exact ⟨before, item, after, heq, hpass, hfixed, hitem⟩

theorem faults_forM_iff :
    Faults (items.forM check) ↔ PassesUpTo check (fun a => Faults (check a)) items := by
  induction items with
  | nil => simp [Faults, PassesUpTo, pure, Except.pure]
  | cons a rest ih =>
    change Faults (check a >>= fun _ => rest.forM check) ↔ _
    rw [PassesUpTo.cons_iff, faults_bind_iff, ← ih]
    exact or_congr_right ⟨fun ⟨_, ha, hrest⟩ => ⟨ha, hrest⟩, fun ⟨ha, hrest⟩ => ⟨(), ha, hrest⟩⟩

/-! ## Optional entries of an array -/

theorem getD_replicate (count id : Nat) :
    (Array.replicate count (none : Option α))[id]?.getD none = none := by
  rw [Array.getElem?_replicate]
  split <;> rfl

theorem getD_setIfInBounds {entries : Array (Option α)} {entry : α} {id other : Nat}
    (hid : id < entries.size) : (entries.setIfInBounds id (some entry))[other]?.getD none
      = if other = id then some entry else entries[other]?.getD none := by
  rw [Array.getElem?_setIfInBounds]
  by_cases hsame : other = id
  · rw [if_pos hsame.symm, if_pos hsame, if_pos hid]
    rfl
  · rw [if_neg (Ne.symm hsame), if_neg hsame]

end GraphJit
