-- Substitution in nameless terms: types for the references to types and terms for those
-- to terms, all at once. The laws say how it composes with renaming, which references
-- occur in what comes out, and when it may pass a binder that takes its name.
import FomegaLab.Proofs.Nameless.Occurrence
import FomegaLab.Proofs.Nameless.Terms

namespace FomegaLab.NamelessTerm

/-- A term for each reference to a term. -/
abbrev Subst := Ref Name → NamelessTerm

namespace Subst

/-- A substitution under one more term binder. -/
def lift (τ : Subst) : Subst := Ref.cons (var (.bound 0)) fun r => (τ r).rename id Ref.succ

/-- A substitution under one more type binder. -/
def liftTy (τ : Subst) : Subst := fun r => (τ r).rename Ref.succ id

/-- Puts `replacement` for the free name `x`. -/
def single (x : Name) (replacement : NamelessTerm) : Subst :=
  fun r => if r = .free x then replacement else var r

@[simp] theorem single_self (x : Name) (u : NamelessTerm) : single x u (.free x) = u := if_pos rfl

theorem single_of_ne {x : Name} {r : Ref Name} (h : r ≠ .free x) (u : NamelessTerm) :
    single x u r = var r := if_neg h

@[simp] theorem lift_zero (τ : Subst) : τ.lift (.bound 0) = var (.bound 0) := rfl

@[simp] theorem lift_succ (τ : Subst) (r : Ref Name) :
    τ.lift r.succ = (τ r).rename id Ref.succ := Ref.cons_succ _ _ _

theorem lift_var : lift var = var := by
  funext r
  cases r using Ref.succCases <;> simp [rename]

theorem liftTy_var : liftTy var = var := rfl

end Subst

/-- Each binder is passed in the one substitution that it belongs to, but what is put in
below it is seen from under it in both. -/
def subst (σ : NamelessTy.Subst) (τ : Subst) : NamelessTerm → NamelessTerm
  | var r => τ r
  | lam type body => lam (type.subst σ) (body.subst σ τ.lift)
  | app function argument => app (function.subst σ τ) (argument.subst σ τ)
  | tyLam kind body => tyLam kind (body.subst σ.lift τ.liftTy)
  | inst term type => inst (term.subst σ τ) (type.subst σ)
  | const l => const l
  | error type => error (type.subst σ)

attribute [local simp] rename subst

/-! ## Composition -/

theorem Subst.lift_comp_rename (τ : Subst) (π : Ref Name → Ref Name) :
    Subst.lift (τ ∘ π) = τ.lift ∘ Ref.lift π := by
  funext r
  cases r using Ref.succCases <;> simp

theorem rename_subst (ρ : Ref TyName → Ref TyName) (π : Ref Name → Ref Name)
    (σ : NamelessTy.Subst) (τ : Subst) (t : NamelessTerm) :
    (t.rename ρ π).subst σ τ = t.subst (σ ∘ ρ) (τ ∘ π) := by
  induction t generalizing ρ π σ τ with
  | var | const => rfl
  | error type => simp only [rename, subst, NamelessTy.rename_subst]
  | app f t ihf iht => simp only [rename, subst, ihf, iht]
  | inst t type ih => simp only [rename, subst, ih, NamelessTy.rename_subst]
  | lam type body ih =>
    simp only [rename, subst, ih, NamelessTy.rename_subst, Subst.lift_comp_rename]
  | tyLam k body ih =>
    simp only [rename, subst, ih, NamelessTy.Subst.lift_comp_rename]
    rfl

theorem Subst.lift_rename (τ : Subst) (ρ : Ref TyName → Ref TyName) (π : Ref Name → Ref Name) :
    Subst.lift (fun r => (τ r).rename ρ π) = fun r => (τ.lift r).rename ρ (Ref.lift π) := by
  funext r
  cases r using Ref.succCases with
  | zero => simp
  | succ r =>
    simp only [lift_succ, rename_rename]
    congr 1
    funext s
    simp

theorem Subst.liftTy_rename (τ : Subst) (ρ : Ref TyName → Ref TyName) (π : Ref Name → Ref Name) :
    Subst.liftTy (fun r => (τ r).rename ρ π) = fun r => (τ.liftTy r).rename (Ref.lift ρ) π := by
  funext r
  simp only [liftTy, rename_rename]
  congr 1
  funext s
  simp

theorem subst_rename (σ : NamelessTy.Subst) (τ : Subst) (ρ : Ref TyName → Ref TyName)
    (π : Ref Name → Ref Name) (t : NamelessTerm) :
    (t.subst σ τ).rename ρ π =
      t.subst (fun r => (σ r).rename ρ) fun r => (τ r).rename ρ π := by
  induction t generalizing σ τ ρ π with
  | var | const => rfl
  | error type => simp only [rename, subst, NamelessTy.subst_rename]
  | app f t ihf iht => simp only [rename, subst, ihf, iht]
  | inst t type ih => simp only [rename, subst, ih, NamelessTy.subst_rename]
  | lam type body ih => simp only [rename, subst, ih, NamelessTy.subst_rename, Subst.lift_rename]
  | tyLam k body ih =>
    simp only [rename, subst, ih, NamelessTy.Subst.lift_rename, Subst.liftTy_rename]

theorem subst_var (t : NamelessTerm) : t.subst .var var = t := by
  induction t with
  | var | const => rfl
  | error type => rw [subst, NamelessTy.subst_var]
  | app f t ihf iht => rw [subst, ihf, iht]
  | inst t type ih => rw [subst, ih, NamelessTy.subst_var]
  | lam type body ih => rw [subst, NamelessTy.subst_var, Subst.lift_var, ih]
  | tyLam k body ih => rw [subst, NamelessTy.Subst.lift_var, Subst.liftTy_var, ih]

/-- A renaming is the substitution of references. -/
theorem rename_eq_subst (ρ : Ref TyName → Ref TyName) (π : Ref Name → Ref Name)
    (t : NamelessTerm) : t.rename ρ π = t.subst (fun r => .var (ρ r)) fun r => var (π r) := by
  have h := rename_subst ρ π .var var t
  rw [subst_var] at h
  exact h

/-! ## What occurs -/

/-- A reference to a term occurs, as it is seen from outside of the term. -/
def Occurs (r : Ref Name) : NamelessTerm → Prop
  | var s => s = r
  | lam _ body => body.Occurs r.succ
  | app function argument => function.Occurs r ∨ argument.Occurs r
  | tyLam _ body => body.Occurs r
  | inst term _ => term.Occurs r
  | const _ => False
  | error _ => False

/-- A reference to a type occurs, as it is seen from outside of the term. -/
def OccursTy (r : Ref TyName) : NamelessTerm → Prop
  | var _ => False
  | lam type body => type.Occurs r ∨ body.OccursTy r
  | app function argument => function.OccursTy r ∨ argument.OccursTy r
  | tyLam _ body => body.OccursTy r.succ
  | inst term type => term.OccursTy r ∨ type.Occurs r
  | const _ => False
  | error type => type.Occurs r

attribute [local simp] Occurs OccursTy

theorem Subst.lift_congr {τ τ' : Subst} {t : NamelessTerm}
    (h : ∀ r, t.Occurs r.succ → τ r = τ' r) : ∀ r, t.Occurs r → τ.lift r = τ'.lift r := by
  intro r hr
  cases r using Ref.succCases with
  | zero => rfl
  | succ r => rw [lift_succ, lift_succ, h r hr]

theorem subst_congr {σ σ' : NamelessTy.Subst} {τ τ' : Subst} {t : NamelessTerm}
    (hσ : ∀ r, t.OccursTy r → σ r = σ' r) (hτ : ∀ r, t.Occurs r → τ r = τ' r) :
    t.subst σ τ = t.subst σ' τ' := by
  induction t generalizing σ σ' τ τ' with
  | var r => exact hτ r rfl
  | const => rfl
  | error type => rw [subst, subst, NamelessTy.subst_congr hσ]
  | app f t ihf iht =>
    rw [subst, subst, ihf (fun r hr => hσ r (Or.inl hr)) fun r hr => hτ r (Or.inl hr),
      iht (fun r hr => hσ r (Or.inr hr)) fun r hr => hτ r (Or.inr hr)]
  | inst t type ih =>
    rw [subst, subst, ih (fun r hr => hσ r (Or.inl hr)) hτ,
      NamelessTy.subst_congr fun r hr => hσ r (Or.inr hr)]
  | lam type body ih =>
    rw [subst, subst, NamelessTy.subst_congr fun r hr => hσ r (Or.inl hr),
      ih (fun r hr => hσ r (Or.inr hr)) (Subst.lift_congr hτ)]
  | tyLam k body ih =>
    have hσ' : ∀ r, body.OccursTy r → σ.lift r = σ'.lift r := by
      intro r hr
      cases r using Ref.succCases with
      | zero => rfl
      | succ r => rw [NamelessTy.Subst.lift_succ, NamelessTy.Subst.lift_succ, hσ r hr]
    have hτ' : ∀ r, body.Occurs r → τ.liftTy r = τ'.liftTy r := by
      intro r hr
      rw [Subst.liftTy, Subst.liftTy, hτ r hr]
    rw [subst, subst, ih hσ' hτ']

/-- A substitution that keeps what occurs keeps the term. -/
theorem subst_eq_self {σ : NamelessTy.Subst} {τ : Subst} {t : NamelessTerm}
    (hσ : ∀ r, t.OccursTy r → σ r = .var r) (hτ : ∀ r, t.Occurs r → τ r = var r) :
    t.subst σ τ = t := by
  rw [subst_congr hσ hτ, subst_var]

theorem occurs_rename {ρ : Ref TyName → Ref TyName} {π : Ref Name → Ref Name} {t : NamelessTerm}
    {r : Ref Name} : (t.rename ρ π).Occurs r ↔ ∃ s, t.Occurs s ∧ π s = r := by
  induction t generalizing ρ π r with
  | var s => simp
  | const | error => simp
  | app f t ihf iht => simp only [rename, Occurs, ihf, iht, or_and_right, exists_or]
  | inst t type ih => simp only [rename, Occurs, ih]
  | tyLam k body ih => simp only [rename, Occurs, ih]
  | lam type body ih =>
    rw [rename, Occurs, ih, Ref.exists_iff_succ (by simp)]
    simp only [Occurs, Ref.lift_succ, Ref.succ_inj]

theorem occursTy_rename {ρ : Ref TyName → Ref TyName} {π : Ref Name → Ref Name}
    {t : NamelessTerm} {r : Ref TyName} :
    (t.rename ρ π).OccursTy r ↔ ∃ s, t.OccursTy s ∧ ρ s = r := by
  induction t generalizing ρ π r with
  | var | const => simp
  | error type => simp only [rename, OccursTy, NamelessTy.occurs_rename]
  | app f t ihf iht => simp only [rename, OccursTy, ihf, iht, or_and_right, exists_or]
  | inst t type ih =>
    simp only [rename, OccursTy, ih, NamelessTy.occurs_rename, or_and_right, exists_or]
  | lam type body ih =>
    simp only [rename, OccursTy, ih, NamelessTy.occurs_rename, or_and_right, exists_or]
  | tyLam k body ih =>
    rw [rename, OccursTy, ih, Ref.exists_iff_succ (by simp)]
    simp only [OccursTy, Ref.lift_succ, Ref.succ_inj]

theorem occurs_subst {σ : NamelessTy.Subst} {τ : Subst} {t : NamelessTerm} {r : Ref Name} :
    (t.subst σ τ).Occurs r ↔ ∃ s, t.Occurs s ∧ (τ s).Occurs r := by
  induction t generalizing σ τ r with
  | var s => simp
  | const | error => simp
  | app f t ihf iht => simp only [subst, Occurs, ihf, iht, or_and_right, exists_or]
  | inst t type ih => simp only [subst, Occurs, ih]
  | tyLam k body ih => simp [ih, Subst.liftTy, occurs_rename]
  | lam type body ih =>
    rw [subst, Occurs, ih, Ref.exists_iff_succ (by simp)]
    simp [occurs_rename]

/-- A type comes from the types put in, or with a term that is put in. -/
theorem occursTy_subst {σ : NamelessTy.Subst} {τ : Subst} {t : NamelessTerm} {r : Ref TyName} :
    (t.subst σ τ).OccursTy r ↔
      (∃ s, t.OccursTy s ∧ (σ s).Occurs r) ∨ ∃ s, t.Occurs s ∧ (τ s).OccursTy r := by
  induction t generalizing σ τ r with
  | var s => simp
  | const => simp
  | error type => simp [NamelessTy.occurs_subst]
  | app f t ihf iht =>
    simp only [subst, Occurs, OccursTy, ihf, iht, or_and_right, exists_or]
    exact or_or_or_comm
  | inst t type ih =>
    simp only [subst, Occurs, OccursTy, ih, NamelessTy.occurs_subst, or_and_right, exists_or]
    exact or_right_comm
  | lam type body ih =>
    have hbody : (∃ s, body.Occurs s ∧ (τ.lift s).OccursTy r) ↔
        ∃ s, body.Occurs s.succ ∧ (τ s).OccursTy r := by
      rw [Ref.exists_iff_succ (by simp)]
      simp [occursTy_rename]
    simp only [subst, Occurs, OccursTy, ih, NamelessTy.occurs_subst, hbody, or_and_right,
      exists_or, or_assoc]
  | tyLam k body ih =>
    rw [subst, OccursTy, ih, Ref.exists_iff_succ (by simp [NamelessTy.Occurs])]
    simp [NamelessTy.occurs_rename, Subst.liftTy, occursTy_rename]

/-! ### What occurs after a name is replaced -/

theorem occurs_subst_single {t u : NamelessTerm} {x : Name} {r : Ref Name} :
    (t.subst .var (.single x u)).Occurs r ↔
      t.Occurs r ∧ r ≠ .free x ∨ t.Occurs (.free x) ∧ u.Occurs r := by
  have hsingle : ∀ s, (Subst.single x u s).Occurs r ↔
      s ≠ .free x ∧ s = r ∨ u.Occurs r ∧ s = .free x := by
    intro s
    by_cases hs : s = .free x <;> simp [Subst.single, hs]
  simp [occurs_subst, hsingle, and_or_left, exists_or]

theorem occursTy_subst_single {t u : NamelessTerm} {x : Name} {r : Ref TyName} :
    (t.subst .var (.single x u)).OccursTy r ↔
      t.OccursTy r ∨ t.Occurs (.free x) ∧ u.OccursTy r := by
  have hsingle : ∀ s, (Subst.single x u s).OccursTy r ↔ u.OccursTy r ∧ s = .free x := by
    intro s
    by_cases hs : s = .free x <;> simp [Subst.single, hs]
  simp [occursTy_subst, hsingle, NamelessTy.Occurs]

theorem occursTy_substTy_single {t : NamelessTerm} {u : NamelessTy} {a : TyName}
    {r : Ref TyName} :
    (t.subst (.single a u) var).OccursTy r ↔
      t.OccursTy r ∧ r ≠ .free a ∨ t.OccursTy (.free a) ∧ u.Occurs r := by
  simp [occursTy_subst, NamelessTy.Subst.occurs_single, and_or_left, exists_or]

/-! ## Names and binders -/

theorem rename_congr {ρ ρ' : Ref TyName → Ref TyName} {π π' : Ref Name → Ref Name}
    {t : NamelessTerm} (hρ : ∀ r, t.OccursTy r → ρ r = ρ' r)
    (hπ : ∀ r, t.Occurs r → π r = π' r) : t.rename ρ π = t.rename ρ' π' := by
  rw [rename_eq_subst, rename_eq_subst]
  exact subst_congr (fun r hr => by rw [hρ r hr]) fun r hr => by rw [hπ r hr]

theorem occurs_abstract {t : NamelessTerm} {x : Name} {r : Ref Name} :
    (t.abstract x).Occurs r.succ ↔ t.Occurs r ∧ r ≠ .free x := by
  simp [abstract, occurs_rename, Ref.bind_eq_succ_iff]

theorem occursTy_abstract {t : NamelessTerm} {x : Name} {r : Ref TyName} :
    (t.abstract x).OccursTy r ↔ t.OccursTy r := by
  simp [abstract, occursTy_rename]

theorem occursTy_abstractTy {t : NamelessTerm} {a : TyName} {r : Ref TyName} :
    (t.abstractTy a).OccursTy r.succ ↔ t.OccursTy r ∧ r ≠ .free a := by
  simp [abstractTy, occursTy_rename, Ref.bind_eq_succ_iff]

theorem occurs_abstractTy {t : NamelessTerm} {a : TyName} {r : Ref Name} :
    (t.abstractTy a).Occurs r ↔ t.Occurs r := by
  simp [abstractTy, occurs_rename]

/-- Turning a name that does not occur into a binder makes a binder without uses. -/
theorem abstract_of_not_occurs {t : NamelessTerm} {x : Name} (h : ¬ t.Occurs (.free x)) :
    t.abstract x = t.rename id Ref.succ :=
  rename_congr (fun _ _ => rfl) fun _ hr => Ref.bind_of_ne fun hrx => h (hrx ▸ hr)

theorem abstractTy_of_not_occurs {t : NamelessTerm} {a : TyName} (h : ¬ t.OccursTy (.free a)) :
    t.abstractTy a = t.rename Ref.succ id :=
  rename_congr (fun _ hr => Ref.bind_of_ne fun hra => h (hra ▸ hr)) fun _ _ => rfl

/-- Binding the name `y` after a substitution is binding it before one that puts the same
for the bound references. -/
theorem abstract_subst {t : NamelessTerm} {σ : NamelessTy.Subst} {τ τ' : Subst} {y : Name}
    (h : ∀ r, τ' (Ref.bind y r) = (τ r).abstract y) :
    (t.abstract y).subst σ τ' = (t.subst σ τ).abstract y := by
  rw [abstract, abstract, rename_subst, subst_rename]
  refine subst_congr (fun r _ => ?_) fun r _ => h r
  rw [NamelessTy.rename_id, Function.comp_id]

theorem abstractTy_subst {t : NamelessTerm} {σ σ' : NamelessTy.Subst} {τ τ' : Subst} {b : TyName}
    (hσ : ∀ r, σ' (Ref.bind b r) = (σ r).abstract b) (hτ : ∀ r, τ' r = (τ r).abstractTy b) :
    (t.abstractTy b).subst σ' τ' = (t.subst σ τ).abstractTy b := by
  rw [abstractTy, abstractTy, rename_subst, subst_rename]
  exact subst_congr (fun r _ => hσ r) fun r _ => hτ r

/-! ### A term for a term name -/

theorem Subst.lift_single_bind {x y : Name} {u : NamelessTerm} (hyx : y ≠ x)
    (hu : ¬ u.Occurs (.free y)) (r : Ref Name) :
    (single x u).lift (Ref.bind y r) = (single x u r).abstract y := by
  by_cases hrx : r = .free x
  · have hry : r ≠ .free y := by simp [hrx, Ne.symm hyx]
    rw [Ref.bind_of_ne hry, lift_succ, hrx, single_self, abstract_of_not_occurs hu]
  · rw [single_of_ne hrx, abstract, rename]
    by_cases hry : r = .free y
    · simp [hry]
    · simp [Ref.bind_of_ne hry, single_of_ne hrx]

/-- A term binder of another name may be passed if it captures nothing. -/
theorem abstract_subst_single {t u : NamelessTerm} {x y : Name} (hyx : y ≠ x)
    (hu : ¬ u.Occurs (.free y)) :
    (t.abstract y).subst .var (Subst.single x u).lift =
      (t.subst .var (.single x u)).abstract y :=
  abstract_subst (Subst.lift_single_bind hyx hu)

/-- A term binder of the same name stops the substitution. -/
theorem abstract_subst_single_self {t u : NamelessTerm} {x : Name} :
    (t.abstract x).subst .var (Subst.single x u).lift = t.abstract x := by
  refine subst_eq_self (fun _ _ => rfl) fun r hr => ?_
  cases r using Ref.succCases with
  | zero => rfl
  | succ r =>
    have hrx := (occurs_abstract.mp hr).2
    rw [Subst.lift_succ, Subst.single_of_ne hrx, rename]

/-- A new name for a term binder is as good as the old one. -/
theorem abstract_subst_var {t : NamelessTerm} {y z : Name} (h : ¬ t.Occurs (.free z)) :
    (t.subst .var (.single y (var (.free z)))).abstract z = t.abstract y := by
  rw [abstract, abstract, subst_rename, rename_eq_subst]
  refine subst_congr (fun _ _ => rfl) fun r hr => ?_
  by_cases hry : r = .free y
  · simp [hry]
  · have hrz : r ≠ .free z := fun hrz => h (hrz ▸ hr)
    simp [Subst.single_of_ne hry, Ref.bind_of_ne hry, Ref.bind_of_ne hrz]

/-- Putting a term for the innermost binder is putting it for the name that was bound. -/
theorem abstract_subst_cons (t : NamelessTerm) (x : Name) (u : NamelessTerm) :
    (t.abstract x).subst .var (Ref.cons u var) = t.subst .var (.single x u) := by
  rw [abstract, rename_subst]
  refine subst_congr (fun _ _ => rfl) fun r _ => ?_
  by_cases hr : r = .free x
  · simp [hr]
  · simp [Ref.bind_of_ne hr, Subst.single_of_ne hr]

/-- Equal abstractions have equal instances. -/
theorem subst_single_of_abstract_eq {t t' u u' : NamelessTerm} {x y : Name}
    (h : t.abstract x = t'.abstract y) (hu : u = u') :
    t.subst .var (.single x u) = t'.subst .var (.single y u') := by
  rw [← abstract_subst_cons, ← abstract_subst_cons, h, hu]

/-- A type binder may be passed if it captures nothing. -/
theorem abstractTy_subst_single {t u : NamelessTerm} {x : Name} {b : TyName}
    (hu : ¬ u.OccursTy (.free b)) :
    (t.abstractTy b).subst .var (Subst.single x u).liftTy =
      (t.subst .var (.single x u)).abstractTy b := by
  refine abstractTy_subst (fun _ => rfl) fun r => ?_
  rw [Subst.liftTy, Subst.single]
  split_ifs
  · exact (abstractTy_of_not_occurs hu).symm
  · rfl

/-! ### A type for a type name -/

/-- A term binder never stands in the way of types. -/
theorem abstract_substTy {t : NamelessTerm} {σ : NamelessTy.Subst} {y : Name} :
    (t.abstract y).subst σ var = (t.subst σ var).abstract y :=
  abstract_subst fun _ => rfl

theorem abstractTy_substTy_single {t : NamelessTerm} {u : NamelessTy} {a b : TyName}
    (hba : b ≠ a) (hu : ¬ u.Occurs (.free b)) :
    (t.abstractTy b).subst (NamelessTy.Subst.single a u).lift var =
      (t.subst (.single a u) var).abstractTy b :=
  abstractTy_subst (NamelessTy.Subst.lift_single_bind hba hu) fun _ => rfl

theorem abstractTy_substTy_single_self {t : NamelessTerm} {u : NamelessTy} {a : TyName} :
    (t.abstractTy a).subst (NamelessTy.Subst.single a u).lift var = t.abstractTy a := by
  refine subst_eq_self (fun r hr => ?_) fun _ _ => rfl
  cases r using Ref.succCases with
  | zero => rfl
  | succ r =>
    have hra := (occursTy_abstractTy.mp hr).2
    rw [NamelessTy.Subst.lift_succ, NamelessTy.Subst.single_of_ne hra, NamelessTy.rename]

/-- A new name for a type binder is as good as the old one. -/
theorem abstractTy_substTy_var {t : NamelessTerm} {b c : TyName} (h : ¬ t.OccursTy (.free c)) :
    (t.subst (.single b (.var (.free c))) var).abstractTy c = t.abstractTy b := by
  rw [abstractTy, abstractTy, subst_rename, rename_eq_subst]
  refine subst_congr (fun r hr => ?_) fun _ _ => rfl
  by_cases hrb : r = .free b
  · simp [hrb, NamelessTy.rename]
  · have hrc : r ≠ .free c := fun hrc => h (hrc ▸ hr)
    simp [NamelessTy.Subst.single_of_ne hrb, NamelessTy.rename, Ref.bind_of_ne hrb,
      Ref.bind_of_ne hrc]

theorem abstractTy_subst_cons (t : NamelessTerm) (a : TyName) (u : NamelessTy) :
    (t.abstractTy a).subst (Ref.cons u .var) var = t.subst (.single a u) var := by
  rw [abstractTy, rename_subst]
  refine subst_congr (fun r _ => ?_) fun _ _ => rfl
  by_cases hr : r = .free a
  · simp [hr]
  · simp [Ref.bind_of_ne hr, NamelessTy.Subst.single_of_ne hr]

theorem substTy_single_of_abstractTy_eq {t t' : NamelessTerm} {u u' : NamelessTy} {a b : TyName}
    (h : t.abstractTy a = t'.abstractTy b) (hu : u = u') :
    t.subst (.single a u) var = t'.subst (.single b u') var := by
  rw [← abstractTy_subst_cons, ← abstractTy_subst_cons, h, hu]

end FomegaLab.NamelessTerm
