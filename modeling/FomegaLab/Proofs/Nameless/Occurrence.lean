-- Which references occur in a nameless type. Renaming and substitution see no
-- others, so a name that does not occur may be bound or replaced freely.
import FomegaLab.Proofs.Nameless.Syntax

namespace FomegaLab

/-- What holds of some reference under a binder, but not of the binder itself, holds of
one that comes from outside. -/
theorem Ref.exists_iff_succ {ν : Type} {P : Ref ν → Prop} (hzero : ¬ P (bound 0)) :
    (∃ r, P r) ↔ ∃ r : Ref ν, P r.succ := by
  constructor
  · rintro ⟨r, hr⟩
    cases r using succCases with
    | zero => exact absurd hr hzero
    | succ r => exact ⟨r, hr⟩
  · rintro ⟨r, hr⟩
    exact ⟨r.succ, hr⟩

theorem Ref.bind_eq_succ_iff {ν : Type} [DecidableEq ν] {a : ν} {r s : Ref ν} :
    bind a s = r.succ ↔ r ≠ free a ∧ s = r := by
  by_cases hs : s = free a
  · simp [hs, eq_comm]
  · rw [bind_of_ne hs, succ_inj]
    exact ⟨fun h => ⟨h ▸ hs, h⟩, And.right⟩

end FomegaLab

namespace FomegaLab.NamelessTy

/-- A reference occurs, as it is seen from outside of the type. -/
def Occurs (r : Ref TyName) : NamelessTy → Prop
  | var s => s = r
  | arrow argument result => argument.Occurs r ∨ result.Occurs r
  | all _ body => body.Occurs r.succ
  | lam _ body => body.Occurs r.succ
  | app function argument => function.Occurs r ∨ argument.Occurs r
  | builtin _ => False

attribute [local simp] Occurs

/-! ## Renaming and substitution see what occurs -/

theorem Subst.lift_congr {σ τ : Subst} {t : NamelessTy}
    (h : ∀ r, t.Occurs r.succ → σ r = τ r) : ∀ r, t.Occurs r → σ.lift r = τ.lift r := by
  intro r hr
  cases r using Ref.succCases with
  | zero => rfl
  | succ r => rw [lift_succ, lift_succ, h r hr]

theorem subst_congr {σ τ : Subst} {t : NamelessTy} (h : ∀ r, t.Occurs r → σ r = τ r) :
    t.subst σ = t.subst τ := by
  induction t generalizing σ τ with
  | var r => exact h r rfl
  | builtin => rfl
  | arrow s t ihs iht | app s t ihs iht =>
    simp only [subst, ihs fun r hr => h r (Or.inl hr), iht fun r hr => h r (Or.inr hr)]
  | all k body ih | lam k body ih => simp only [subst, ih (Subst.lift_congr h)]

theorem rename_congr {ρ ρ' : Ref TyName → Ref TyName} {t : NamelessTy}
    (h : ∀ r, t.Occurs r → ρ r = ρ' r) : t.rename ρ = t.rename ρ' := by
  rw [rename_eq_subst, rename_eq_subst]
  exact subst_congr fun r hr => by rw [h r hr]

/-- A substitution that keeps what occurs keeps the type. -/
theorem subst_eq_self {σ : Subst} {t : NamelessTy} (h : ∀ r, t.Occurs r → σ r = var r) :
    t.subst σ = t := by
  rw [subst_congr h, subst_var]

theorem occurs_rename {ρ : Ref TyName → Ref TyName} {t : NamelessTy} {r : Ref TyName} :
    (t.rename ρ).Occurs r ↔ ∃ s, t.Occurs s ∧ ρ s = r := by
  induction t generalizing ρ r with
  | var s => simp [rename]
  | builtin => simp [rename]
  | arrow s t ihs iht | app s t ihs iht =>
    simp only [rename, Occurs, ihs, iht, or_and_right, exists_or]
  | all k body ih | lam k body ih =>
    rw [rename, Occurs, ih, Ref.exists_iff_succ (by simp)]
    simp only [Occurs, Ref.lift_succ, Ref.succ_inj]

theorem occurs_subst {σ : Subst} {t : NamelessTy} {r : Ref TyName} :
    (t.subst σ).Occurs r ↔ ∃ s, t.Occurs s ∧ (σ s).Occurs r := by
  induction t generalizing σ r with
  | var s => simp [subst]
  | builtin => simp [subst]
  | arrow s t ihs iht | app s t ihs iht =>
    simp only [subst, Occurs, ihs, iht, or_and_right, exists_or]
  | all k body ih | lam k body ih =>
    rw [subst, Occurs, ih, Ref.exists_iff_succ (by simp)]
    simp [occurs_rename]

theorem Subst.occurs_single {a : TyName} {u : NamelessTy} {r s : Ref TyName} :
    (single a u s).Occurs r ↔ s ≠ .free a ∧ s = r ∨ u.Occurs r ∧ s = .free a := by
  by_cases hs : s = .free a <;> simp [single, hs]

/-- Substituting for a name takes its occurrences away, and brings in those of the
replacement if there were any. -/
theorem occurs_subst_single {t u : NamelessTy} {a : TyName} {r : Ref TyName} :
    (t.subst (Subst.single a u)).Occurs r ↔
      t.Occurs r ∧ r ≠ .free a ∨ t.Occurs (.free a) ∧ u.Occurs r := by
  simp [occurs_subst, Subst.occurs_single, and_or_left, exists_or]

/-- What occurs in an instance occurs in the body or in the argument. -/
theorem occurs_inst {body argument : NamelessTy} {r : Ref TyName}
    (h : (body.inst argument).Occurs r) : body.Occurs r.succ ∨ argument.Occurs r := by
  obtain ⟨s, hs, hr⟩ := occurs_subst.mp h
  cases s using Ref.succCases with
  | zero => exact Or.inr hr
  | succ s =>
    rw [Ref.cons_succ] at hr
    cases hr
    exact Or.inl hs

/-! ## Free names -/

theorem occurs_abstract {t : NamelessTy} {a : TyName} {r : Ref TyName} :
    (t.abstract a).Occurs r.succ ↔ t.Occurs r ∧ r ≠ .free a := by
  simp [abstract, occurs_rename, Ref.bind_eq_succ_iff]

/-- Turning a name that does not occur into a binder makes a binder without uses. -/
theorem abstract_of_not_occurs {t : NamelessTy} {a : TyName} (h : ¬ t.Occurs (.free a)) :
    t.abstract a = t.rename Ref.succ :=
  rename_congr fun _ hr => Ref.bind_of_ne fun hra => h (hra ▸ hr)

theorem subst_single_of_not_occurs {t u : NamelessTy} {a : TyName} (h : ¬ t.Occurs (.free a)) :
    t.subst (Subst.single a u) = t := by
  apply subst_eq_self
  intro r hr
  exact Subst.single_of_ne (fun hra => h (hra ▸ hr)) u

/-- Two names may be replaced in either order, if the second replacement is also made in
the first one and does not bring the first name back. -/
theorem subst_single_subst_single {t u v : NamelessTy} {a b : TyName} (hab : a ≠ b)
    (hv : ¬ v.Occurs (.free a)) :
    (t.subst (Subst.single a u)).subst (Subst.single b v) =
      (t.subst (Subst.single b v)).subst (Subst.single a (u.subst (Subst.single b v))) := by
  rw [subst_subst, subst_subst]
  refine subst_congr fun r _ => ?_
  by_cases hra : r = .free a
  · have hab' : Ref.free a ≠ .free b := by simpa using hab
    rw [hra, Subst.single_self, Subst.single_of_ne hab', subst, Subst.single_self]
  · by_cases hrb : r = .free b
    · rw [Subst.single_of_ne hra, subst, hrb, Subst.single_self, subst_single_of_not_occurs hv]
    · rw [Subst.single_of_ne hra, Subst.single_of_ne hrb, subst, subst, Subst.single_of_ne hra,
        Subst.single_of_ne hrb]

/-- A new name for a binder is as good as the old one. -/
theorem abstract_subst_var {t : NamelessTy} {b c : TyName} (h : ¬ t.Occurs (.free c)) :
    (t.subst (Subst.single b (var (.free c)))).abstract c = t.abstract b := by
  rw [abstract, abstract, subst_rename, rename_eq_subst]
  apply subst_congr
  intro r hr
  by_cases hrb : r = .free b
  · simp [hrb, rename]
  · have hrc : r ≠ .free c := fun hrc => h (hrc ▸ hr)
    simp [Subst.single_of_ne hrb, rename, Ref.bind_of_ne hrb, Ref.bind_of_ne hrc]

theorem Subst.lift_single_bind {u : NamelessTy} {a b : TyName} (hba : b ≠ a)
    (hu : ¬ u.Occurs (.free b)) (r : Ref TyName) :
    (single a u).lift (Ref.bind b r) = (single a u r).abstract b := by
  by_cases hra : r = .free a
  · have hrb : r ≠ .free b := by simp [hra, Ne.symm hba]
    rw [Ref.bind_of_ne hrb, lift_succ, hra, single_self, abstract_of_not_occurs hu]
  · rw [single_of_ne hra, abstract, rename]
    by_cases hrb : r = .free b
    · simp [hrb]
    · simp [Ref.bind_of_ne hrb, single_of_ne hra, rename]

/-- A binder may be passed if it is another name and captures nothing. -/
theorem abstract_subst_single {t u : NamelessTy} {a b : TyName} (hba : b ≠ a)
    (hu : ¬ u.Occurs (.free b)) :
    (t.abstract b).subst (Subst.single a u).lift = (t.subst (Subst.single a u)).abstract b := by
  rw [abstract, abstract, rename_subst, subst_rename]
  exact subst_congr fun r _ => Subst.lift_single_bind hba hu r

/-- A binder of the same name stops the substitution. -/
theorem abstract_subst_single_self {t u : NamelessTy} {a : TyName} :
    (t.abstract a).subst (Subst.single a u).lift = t.abstract a := by
  apply subst_eq_self
  intro r hr
  cases r using Ref.succCases with
  | zero => rfl
  | succ r =>
    have hra := (occurs_abstract.mp hr).2
    rw [Subst.lift_succ, Subst.single_of_ne hra, rename]

end FomegaLab.NamelessTy
