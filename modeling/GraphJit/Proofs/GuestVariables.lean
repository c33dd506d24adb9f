import GraphJit.SSA.Variables
import Mathlib.Data.List.Nodup
import Mathlib.Tactic.Common

/-! # The variables of a graph

Collecting the variables of a graph finds every guest register once, and fails only
if a register is used both as an integer and as a float.
-/

namespace GraphJit

open List

namespace ValueType

/-- A variable of the type has room for accesses at the other type. -/
def Covers (declared accessed : ValueType) : Prop :=
  declared.isInteger = accessed.isInteger ∧ accessed.size ≤ declared.size

theorem Covers.refl (type : ValueType) : type.Covers type := ⟨rfl, Nat.le_refl _⟩

theorem Covers.trans {first second third : ValueType} (hfirst : first.Covers second)
    (hsecond : second.Covers third) : first.Covers third :=
  ⟨hfirst.1.trans hsecond.1, Nat.le_trans hsecond.2 hfirst.2⟩

end ValueType

namespace GuestVariable

variable {reg : GuestRegister} {type : ValueType} {error : CompileError}

/-- One access changes at most the variable of its register. -/
theorem note_eq_ok {vars result : List GuestVariable} (hnote : note reg type vars = .ok result) :
    (result.map (·.register) = vars.map (·.register) ∧ reg ∈ vars.map (·.register) ∨
      result.map (·.register) = vars.map (·.register) ++ [reg] ∧ reg ∉ vars.map (·.register)) ∧
      (∀ var ∈ result, var ∈ vars ∨ var = ⟨reg, type⟩) ∧
      (∃ var ∈ result, var.register = reg ∧ var.type.Covers type) ∧
      ∀ var ∈ vars, ∃ new ∈ result, new.register = var.register ∧ new.type.Covers var.type := by
  induction vars generalizing result with
  | nil =>
    cases hnote
    simp [ValueType.Covers.refl]
  | cons known rest ih =>
    rw [note] at hnote
    split at hnote
    next hreg =>
      subst hreg
      split at hnote
      next => simp at hnote
      next hclass =>
        have hsame : known.type.isInteger = type.isInteger := by simpa using hclass
        split at hnote <;> cases hnote
        · refine ⟨.inl (by simp), ?_, ⟨_, mem_cons_self, rfl, .refl _⟩, ?_⟩
          · intro var hvar
            rcases mem_cons.mp hvar with rfl | hvar
            · exact .inr rfl
            · exact .inl (.tail _ hvar)
          · intro var hvar
            rcases mem_cons.mp hvar with rfl | hvar
            · exact ⟨_, mem_cons_self, rfl, hsame.symm, Nat.le_of_lt ‹_›⟩
            · exact ⟨var, .tail _ hvar, rfl, .refl _⟩
        · exact ⟨.inl (by simp), fun var hvar => .inl hvar,
            ⟨known, mem_cons_self, rfl, hsame, Nat.not_lt.mp ‹_›⟩,
            fun var hvar => ⟨var, hvar, rfl, .refl _⟩⟩
    next hreg =>
      cases hrest : note reg type rest with
      | error e => simp [hrest, bind, Except.bind] at hnote
      | ok tail =>
        simp only [hrest, bind, Except.bind, pure, Except.pure, Except.ok.injEq] at hnote
        subst hnote
        obtain ⟨hregs, hold, ⟨found, hfound, hclass⟩, hkept⟩ := ih hrest
        refine ⟨?_, ?_, ⟨found, .tail _ hfound, hclass⟩, ?_⟩
        · have hne : reg ≠ known.register := fun h => hreg h.symm
          simp only [map_cons, mem_cons, hne, false_or, cons_append, List.cons.injEq, true_and]
          exact hregs
        · intro var hvar
          rcases mem_cons.mp hvar with rfl | hvar
          · exact .inl mem_cons_self
          · exact (hold var hvar).imp_left (mem_cons_of_mem _)
        · intro var hvar
          rcases mem_cons.mp hvar with rfl | hvar
          · exact ⟨var, mem_cons_self, rfl, .refl _⟩
          · obtain ⟨new, hnew, hsame⟩ := hkept var hvar
            exact ⟨new, .tail _ hnew, hsame⟩

theorem note_eq_error {vars : List GuestVariable} (hnote : note reg type vars = .error error) :
    ∃ known ∈ vars, known.register = reg ∧ known.type.isInteger ≠ type.isInteger ∧
      error = .unsupported (.mixedRegister reg known.type type) := by
  induction vars with
  | nil => simp [note] at hnote
  | cons known rest ih =>
    rw [note] at hnote
    split at hnote
    next hreg =>
      split at hnote
      next hclass =>
        cases hnote
        exact ⟨known, mem_cons_self, hreg, hclass, rfl⟩
      next => split at hnote <;> simp at hnote
    next =>
      cases hrest : note reg type rest with
      | error e =>
        simp only [hrest, bind, Except.bind, Except.error.injEq] at hnote
        subst hnote
        obtain ⟨found, hfound, hspec⟩ := ih hrest
        exact ⟨found, .tail _ hfound, hspec⟩
      | ok tail => simp [hrest, bind, Except.bind, pure, Except.pure] at hnote

/-- The variables found in some operands. -/
structure Accounts (operands : List Operand) (vars : List GuestVariable) : Prop where
  nodup : (vars.map (·.register)).Nodup
  covered : ∀ {reg type}, .register reg type ∈ operands →
    ∃ var ∈ vars, var.register = reg ∧ var.type.Covers type
  used : ∀ {var : GuestVariable}, var ∈ vars → .register var.register var.type ∈ operands

namespace Accounts

variable {seen : List Operand} {vars result : List GuestVariable} {opnd : Operand}

theorem noteOperand (hacc : Accounts seen vars)
    (hnote : noteOperand vars opnd = .ok result) : Accounts (seen ++ [opnd]) result := by
  cases opnd with
  | constant bits type =>
    cases hnote
    exact ⟨hacc.nodup, fun h => hacc.covered (by simpa using h),
      fun h => mem_append_left _ (hacc.used h)⟩
  | localVar id type =>
    cases hnote
    exact ⟨hacc.nodup, fun h => hacc.covered (by simpa using h),
      fun h => mem_append_left _ (hacc.used h)⟩
  | register reg type =>
    obtain ⟨hregs, hold, hfound, hkept⟩ := note_eq_ok hnote
    refine ⟨?_, ?_, ?_⟩
    · rcases hregs with ⟨heq, -⟩ | ⟨heq, hnew⟩
      · rw [heq]
        exact hacc.nodup
      · rw [heq]
        exact nodup_append.mpr ⟨hacc.nodup, nodup_singleton _, by
          intro a ha b hb
          rw [mem_singleton.mp hb]
          exact fun h => hnew (h ▸ ha)⟩
    · intro other otherType hmem
      rcases mem_append.mp hmem with hmem | hmem
      · obtain ⟨var, hvar, hreg, hclass⟩ := hacc.covered hmem
        obtain ⟨new, hnew, hsame, hclass'⟩ := hkept var hvar
        exact ⟨new, hnew, hsame.trans hreg, hclass'.trans hclass⟩
      · obtain ⟨rfl, rfl⟩ : other = reg ∧ otherType = type := by simpa using hmem
        exact hfound
    · intro var hvar
      rcases hold var hvar with hvar | rfl
      · exact mem_append_left _ (hacc.used hvar)
      · simp

variable {operands : List Operand}

theorem foldlM_noteOperand (hacc : Accounts seen vars)
    (hfold : operands.foldlM GuestVariable.noteOperand vars = .ok result) :
    Accounts (seen ++ operands) result := by
  induction operands generalizing seen vars with
  | nil =>
    cases hfold
    simpa using hacc
  | cons opnd rest ih =>
    rw [foldlM_cons] at hfold
    cases hnote : GuestVariable.noteOperand vars opnd with
    | error e => simp [hnote, bind, Except.bind] at hfold
    | ok mid =>
      simp only [hnote, bind, Except.bind] at hfold
      simpa using ih (hacc.noteOperand hnote) hfold

/-- Collecting can only fail at a register used in two ways. -/
theorem foldlM_noteOperand_error (hacc : Accounts seen vars)
    (hfold : operands.foldlM GuestVariable.noteOperand vars = .error error) :
    ∃ reg known used, error = .unsupported (.mixedRegister reg known used) ∧
      known.isInteger ≠ used.isInteger ∧ .register reg known ∈ seen ++ operands ∧
      .register reg used ∈ seen ++ operands := by
  induction operands generalizing seen vars with
  | nil => simp [pure, Except.pure] at hfold
  | cons opnd rest ih =>
    rw [foldlM_cons] at hfold
    cases hnote : GuestVariable.noteOperand vars opnd with
    | error e =>
      simp only [hnote, bind, Except.bind, Except.error.injEq] at hfold
      subst hfold
      cases opnd with
      | constant bits type => simp [GuestVariable.noteOperand] at hnote
      | localVar id type => simp [GuestVariable.noteOperand] at hnote
      | register reg type =>
        obtain ⟨known, hknown, rfl, hclass, rfl⟩ := note_eq_error hnote
        exact ⟨known.register, known.type, type, rfl, hclass,
          mem_append_left _ (hacc.used hknown), by simp⟩
    | ok mid =>
      simp only [hnote, bind, Except.bind] at hfold
      simpa using ih (hacc.noteOperand hnote) hfold

end Accounts

variable {graph : Graph} {vars : List GuestVariable}

theorem collect_eq_ok (hvars : collect graph = .ok vars) :
    Accounts (graph.operations.flatMap Operation.operands) vars := by
  have hempty : Accounts [] [] := ⟨nodup_nil, by simp, by simp⟩
  simpa using hempty.foldlM_noteOperand hvars

theorem collect_eq_error (hvars : collect graph = .error error) :
    ∃ reg known used, error = .unsupported (.mixedRegister reg known used) ∧
      known.isInteger ≠ used.isInteger ∧
      .register reg known ∈ graph.operations.flatMap Operation.operands ∧
      .register reg used ∈ graph.operations.flatMap Operation.operands := by
  have hempty : Accounts [] [] := ⟨nodup_nil, by simp, by simp⟩
  simpa using hempty.foldlM_noteOperand_error hvars

theorem find?_eq_some {operands : List Operand} (hacc : Accounts operands vars)
    {var : GuestVariable} (hvar : var ∈ vars) : find? vars var.register = some var := by
  unfold find?
  have hsome : (vars.find? (·.register == var.register)).isSome :=
    find?_isSome.mpr ⟨var, hvar, by simp⟩
  obtain ⟨found, hfound⟩ := Option.isSome_iff_exists.mp hsome
  have hreg : found.register = var.register := by simpa using find?_some hfound
  rw [hfound]
  exact congrArg some (inj_on_of_nodup_map hacc.nodup (mem_of_find?_eq_some hfound) hvar hreg)

end GuestVariable

end GraphJit
