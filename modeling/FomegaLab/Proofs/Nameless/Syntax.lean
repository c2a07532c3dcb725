-- Nameless types. A bound occurrence is the distance to its binder and a free one
-- keeps its name, so types that differ in bound names only are the same nameless
-- type. Renaming and substitution act on all references at once, and the laws of
-- this module say how they compose.
import FomegaLab.Kind
import FomegaLab.Literal
import FomegaLab.Name
import Mathlib.Logic.Function.Basic
import Mathlib.Tactic.SplitIfs

namespace FomegaLab

/-! ## References -/

inductive Ref (ν : Type) where
  | free (name : ν)
  | bound (index : Nat)
deriving DecidableEq

namespace Ref

variable {ν : Type}

/-- The same reference, seen from under one more binder. -/
def succ : Ref ν → Ref ν
  | free a => free a
  | bound i => bound (i + 1)

/-- Under a binder, a reference is the binder itself or comes from outside. -/
@[elab_as_elim]
theorem succCases {motive : Ref ν → Prop} (zero : motive (bound 0))
    (succ : ∀ r : Ref ν, motive r.succ) : ∀ r, motive r
  | free a => succ (free a)
  | bound 0 => zero
  | bound (i + 1) => succ (bound i)

theorem succ_injective {r s : Ref ν} (h : r.succ = s.succ) : r = s := by
  cases r <;> cases s <;> simp_all [succ]

@[simp] theorem succ_inj {r s : Ref ν} : r.succ = s.succ ↔ r = s := ⟨succ_injective, congrArg _⟩

@[simp] theorem succ_ne_zero (r : Ref ν) : r.succ ≠ bound 0 := by
  cases r <;> simp [succ]

@[simp] theorem zero_ne_succ (r : Ref ν) : bound 0 ≠ r.succ := (succ_ne_zero r).symm

/-- Extends a function on the references outside of a binder to those under it. -/
def cons {α : Type} (a : α) (f : Ref ν → α) : Ref ν → α
  | free b => f (free b)
  | bound 0 => a
  | bound (i + 1) => f (bound i)

@[simp] theorem cons_zero {α : Type} (a : α) (f : Ref ν → α) : cons a f (bound 0) = a := rfl

@[simp] theorem cons_succ {α : Type} (a : α) (f : Ref ν → α) (r : Ref ν) :
    cons a f r.succ = f r := by
  cases r <;> rfl

/-- A renaming under one more binder. -/
def lift (ρ : Ref ν → Ref ν) : Ref ν → Ref ν := cons (bound 0) fun r => (ρ r).succ

@[simp] theorem lift_zero (ρ : Ref ν → Ref ν) : lift ρ (bound 0) = bound 0 := rfl

@[simp] theorem lift_succ (ρ : Ref ν → Ref ν) (r : Ref ν) : lift ρ r.succ = (ρ r).succ :=
  cons_succ _ _ _

theorem lift_id : lift (id : Ref ν → Ref ν) = id := by
  funext r
  cases r using succCases <;> simp

theorem lift_comp (ρ' ρ : Ref ν → Ref ν) : lift (ρ' ∘ ρ) = lift ρ' ∘ lift ρ := by
  funext r
  cases r using succCases <;> simp

theorem lift_injective {ρ : Ref ν → Ref ν} (hρ : Function.Injective ρ) :
    Function.Injective (lift ρ) := by
  intro r s h
  cases r using succCases <;> cases s using succCases
  · rfl
  · simp at h
  · simp at h
  · simp only [lift_succ, succ_inj] at h
    rw [hρ h]

/-- Makes a free name the innermost binder. -/
def bind [DecidableEq ν] (a : ν) : Ref ν → Ref ν
  | free b => if b = a then bound 0 else free b
  | bound i => bound (i + 1)

@[simp] theorem bind_self [DecidableEq ν] (a : ν) : bind a (free a) = bound 0 := if_pos rfl

theorem bind_of_ne [DecidableEq ν] {a : ν} {r : Ref ν} (h : r ≠ free a) : bind a r = r.succ := by
  cases r with
  | free b => exact if_neg fun hb => h (by rw [hb])
  | bound i => rfl

theorem bind_injective [DecidableEq ν] (a : ν) : Function.Injective (bind a) := by
  intro r s h
  by_cases hr : r = .free a <;> by_cases hs : s = .free a
  · rw [hr, hs]
  · rw [hr, bind_self, bind_of_ne hs] at h
    exact absurd h (zero_ne_succ s)
  · rw [hs, bind_self, bind_of_ne hr] at h
    exact absurd h (succ_ne_zero r)
  · rw [bind_of_ne hr, bind_of_ne hs] at h
    exact succ_injective h

end Ref

/-! ## Types -/

inductive NamelessTy where
  | var (r : Ref TyName)
  | arrow (argument result : NamelessTy)
  | all (kind : Kind) (body : NamelessTy)
  | lam (kind : Kind) (body : NamelessTy)
  | app (function argument : NamelessTy)
  | builtin (b : Builtin)
deriving DecidableEq

namespace NamelessTy

/-- A type for each reference. -/
abbrev Subst := Ref TyName → NamelessTy

def rename (ρ : Ref TyName → Ref TyName) : NamelessTy → NamelessTy
  | var r => var (ρ r)
  | arrow argument result => arrow (argument.rename ρ) (result.rename ρ)
  | all kind body => all kind (body.rename (Ref.lift ρ))
  | lam kind body => lam kind (body.rename (Ref.lift ρ))
  | app function argument => app (function.rename ρ) (argument.rename ρ)
  | builtin b => builtin b

/-- A substitution under one more binder. -/
def Subst.lift (σ : Subst) : Subst := Ref.cons (var (.bound 0)) fun r => (σ r).rename Ref.succ

def subst (σ : Subst) : NamelessTy → NamelessTy
  | var r => σ r
  | arrow argument result => arrow (argument.subst σ) (result.subst σ)
  | all kind body => all kind (body.subst σ.lift)
  | lam kind body => lam kind (body.subst σ.lift)
  | app function argument => app (function.subst σ) (argument.subst σ)
  | builtin b => builtin b

attribute [local simp] rename subst

/-- Puts `argument` for the innermost binder of `body`. -/
def inst (body argument : NamelessTy) : NamelessTy := body.subst (Ref.cons argument var)

/-- Turns a free name into the innermost binder. -/
def abstract (body : NamelessTy) (a : TyName) : NamelessTy := body.rename (Ref.bind a)

/-- Puts `replacement` for the free name `a`. -/
def Subst.single (a : TyName) (replacement : NamelessTy) : Subst :=
  fun r => if r = .free a then replacement else var r

@[simp] theorem Subst.single_self (a : TyName) (u : NamelessTy) : single a u (.free a) = u :=
  if_pos rfl

theorem Subst.single_of_ne {a : TyName} {r : Ref TyName} (h : r ≠ .free a) (u : NamelessTy) :
    single a u r = var r := if_neg h

@[simp] theorem Subst.lift_zero (σ : Subst) : σ.lift (.bound 0) = var (.bound 0) := rfl

@[simp] theorem Subst.lift_succ (σ : Subst) (r : Ref TyName) :
    σ.lift r.succ = (σ r).rename Ref.succ := Ref.cons_succ _ _ _

/-! ## Composition -/

theorem rename_id (t : NamelessTy) : t.rename id = t := by
  induction t with
  | var | builtin => rfl
  | arrow s t ihs iht | app s t ihs iht => simp only [rename, ihs, iht]
  | all k body ih | lam k body ih => rw [rename, Ref.lift_id, ih]

theorem rename_rename (ρ ρ' : Ref TyName → Ref TyName) (t : NamelessTy) :
    (t.rename ρ).rename ρ' = t.rename (ρ' ∘ ρ) := by
  induction t generalizing ρ ρ' with
  | var | builtin => rfl
  | arrow s t ihs iht | app s t ihs iht => simp only [rename, ihs, iht]
  | all k body ih | lam k body ih => simp only [rename, ih, Ref.lift_comp]

/-- A renaming that keeps references apart can be undone. -/
theorem exists_rename_rename {ρ : Ref TyName → Ref TyName} (hρ : Function.Injective ρ) :
    ∃ ρ', ∀ t : NamelessTy, (t.rename ρ).rename ρ' = t := by
  have : Nonempty (Ref TyName) := ⟨.bound 0⟩
  obtain ⟨ρ', hinv⟩ := hρ.hasLeftInverse
  refine ⟨ρ', fun t => ?_⟩
  rw [rename_rename, hinv.comp_eq_id, rename_id]

theorem rename_injective {ρ : Ref TyName → Ref TyName} (hρ : Function.Injective ρ) :
    Function.Injective (rename ρ) := by
  obtain ⟨ρ', hinv⟩ := exists_rename_rename hρ
  intro s t h
  rw [← hinv s, ← hinv t, h]

theorem Subst.lift_comp_rename (σ : Subst) (ρ : Ref TyName → Ref TyName) :
    Subst.lift (σ ∘ ρ) = σ.lift ∘ Ref.lift ρ := by
  funext r
  cases r using Ref.succCases <;> simp

theorem rename_subst (ρ : Ref TyName → Ref TyName) (σ : Subst) (t : NamelessTy) :
    (t.rename ρ).subst σ = t.subst (σ ∘ ρ) := by
  induction t generalizing ρ σ with
  | var | builtin => rfl
  | arrow s t ihs iht | app s t ihs iht => simp only [rename, subst, ihs, iht]
  | all k body ih | lam k body ih => simp only [rename, subst, ih, Subst.lift_comp_rename]

theorem Subst.lift_rename (σ : Subst) (ρ : Ref TyName → Ref TyName) :
    Subst.lift (fun r => (σ r).rename ρ) = fun r => (σ.lift r).rename (Ref.lift ρ) := by
  funext r
  cases r using Ref.succCases with
  | zero => simp
  | succ r =>
    simp only [lift_succ, rename_rename]
    congr 1
    funext s
    simp

theorem subst_rename (σ : Subst) (ρ : Ref TyName → Ref TyName) (t : NamelessTy) :
    (t.subst σ).rename ρ = t.subst fun r => (σ r).rename ρ := by
  induction t generalizing ρ σ with
  | var | builtin => rfl
  | arrow s t ihs iht | app s t ihs iht => simp only [rename, subst, ihs, iht]
  | all k body ih | lam k body ih => simp only [rename, subst, ih, Subst.lift_rename]

theorem Subst.lift_subst (σ τ : Subst) :
    Subst.lift (fun r => (σ r).subst τ) = fun r => (σ.lift r).subst τ.lift := by
  funext r
  cases r using Ref.succCases with
  | zero => simp
  | succ r =>
    simp only [lift_succ, subst_rename, rename_subst]
    congr 1
    funext s
    simp

theorem subst_subst (σ τ : Subst) (t : NamelessTy) :
    (t.subst σ).subst τ = t.subst fun r => (σ r).subst τ := by
  induction t generalizing σ τ with
  | var | builtin => rfl
  | arrow s t ihs iht | app s t ihs iht => simp only [subst, ihs, iht]
  | all k body ih | lam k body ih => simp only [subst, ih, Subst.lift_subst]

theorem Subst.lift_var : Subst.lift var = var := by
  funext r
  cases r using Ref.succCases <;> simp

theorem subst_var (t : NamelessTy) : t.subst var = t := by
  induction t with
  | var | builtin => rfl
  | arrow s t ihs iht | app s t ihs iht => simp only [subst, ihs, iht]
  | all k body ih | lam k body ih => rw [subst, Subst.lift_var, ih]

/-- A renaming is the substitution of references. -/
theorem rename_eq_subst (ρ : Ref TyName → Ref TyName) (t : NamelessTy) :
    t.rename ρ = t.subst fun r => var (ρ r) := by
  have h := rename_subst ρ var t
  rw [subst_var] at h
  exact h

/-! ## Instantiation -/

/-- A type from outside of a binder does not see what is put for the binder. -/
theorem rename_succ_subst (u : NamelessTy) (σ : Subst) (t : NamelessTy) :
    (t.rename Ref.succ).subst (Ref.cons u σ) = t.subst σ := by
  rw [rename_subst]
  congr 1
  funext r
  simp

theorem inst_subst (body argument : NamelessTy) (σ : Subst) :
    (body.inst argument).subst σ = (body.subst σ.lift).inst (argument.subst σ) := by
  rw [inst, inst, subst_subst, subst_subst]
  congr 1
  funext r
  cases r using Ref.succCases with
  | zero => simp
  | succ r =>
    rw [Ref.cons_succ, Subst.lift_succ, rename_succ_subst, subst_var, subst]

theorem inst_rename (body argument : NamelessTy) (ρ : Ref TyName → Ref TyName) :
    (body.inst argument).rename ρ = (body.rename (Ref.lift ρ)).inst (argument.rename ρ) := by
  rw [inst, inst, subst_rename, rename_subst]
  congr 1
  funext r
  cases r using Ref.succCases <;> simp

/-- Substituting around a binder and then for the binder is one substitution. -/
theorem subst_lift_inst (body argument : NamelessTy) (σ : Subst) :
    (body.subst σ.lift).inst argument = body.subst (Ref.cons argument σ) := by
  rw [inst, subst_subst]
  congr 1
  funext r
  cases r using Ref.succCases with
  | zero => simp
  | succ r =>
    rw [Ref.cons_succ, Subst.lift_succ, rename_succ_subst, subst_var]

/-- Instantiating the binder that a name was turned into is substituting for the name. -/
theorem abstract_inst (t : NamelessTy) (a : TyName) (u : NamelessTy) :
    (t.abstract a).inst u = t.subst (Subst.single a u) := by
  rw [abstract, inst, rename_subst]
  congr 1
  funext r
  by_cases hr : r = .free a
  · simp [hr]
  · simp [Ref.bind_of_ne hr, Subst.single_of_ne hr]

end NamelessTy

end FomegaLab
