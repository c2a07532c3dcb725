-- Kinds of nameless types. A renaming moves the kind scope and changes nothing
-- else, a substitution that fits the scope keeps the kind, and so does reduction.
import FomegaLab.Proofs.Nameless.Reduction

namespace FomegaLab

/-- The kinds of the references in scope. -/
abbrev KindScope := Ref TyName → Option Kind

namespace KindScope

/-- A scope with one more binder. -/
def push (k : Kind) (Γ : KindScope) : KindScope := Ref.cons (some k) Γ

@[simp] theorem push_zero (k : Kind) (Γ : KindScope) : push k Γ (.bound 0) = some k := rfl

@[simp] theorem push_succ (k : Kind) (Γ : KindScope) (r : Ref TyName) :
    push k Γ r.succ = Γ r := Ref.cons_succ _ _ _

theorem push_comp_lift (k : Kind) (Γ : KindScope) (ρ : Ref TyName → Ref TyName) :
    push k Γ ∘ Ref.lift ρ = push k (Γ ∘ ρ) := by
  funext r
  cases r using Ref.succCases <;> simp

theorem push_comp_succ (k : Kind) (Γ : KindScope) : push k Γ ∘ Ref.succ = Γ := by
  funext r
  simp

end KindScope

namespace NamelessTy

/-- The kind of a type, if it has one. -/
def kind? (Γ : KindScope) : NamelessTy → Option Kind
  | var r => Γ r
  | arrow argument result =>
    if argument.kind? Γ = some .star ∧ result.kind? Γ = some .star then some .star else none
  | all k body => if body.kind? (Γ.push k) = some .star then some .star else none
  | lam k body => (body.kind? (Γ.push k)).map (.arrow k)
  | app function argument =>
    match function.kind? Γ with
    | some (.arrow k result) => if argument.kind? Γ = some k then some result else none
    | _ => none
  | builtin _ => some .star

attribute [local simp] kind?

section

variable {Γ : KindScope} {k : Kind}

theorem kind?_arrow {s t : NamelessTy} : (arrow s t).kind? Γ = some k ↔
    s.kind? Γ = some .star ∧ t.kind? Γ = some .star ∧ k = .star := by
  rw [kind?]
  split_ifs with h
  · simp [h, eq_comm]
  · simp only [false_iff]
    exact fun ⟨hs, ht, _⟩ => h ⟨hs, ht⟩

theorem kind?_all {j : Kind} {t : NamelessTy} : (all j t).kind? Γ = some k ↔
    t.kind? (Γ.push j) = some .star ∧ k = .star := by
  by_cases h : t.kind? (Γ.push j) = some .star <;> simp [h, eq_comm]

theorem kind?_lam {j : Kind} {t : NamelessTy} : (lam j t).kind? Γ = some k ↔
    ∃ result, t.kind? (Γ.push j) = some result ∧ k = .arrow j result := by
  rw [kind?, Option.map_eq_some_iff]
  simp only [eq_comm]

theorem kind?_app {f t : NamelessTy} : (app f t).kind? Γ = some k ↔
    ∃ j, f.kind? Γ = some (.arrow j k) ∧ t.kind? Γ = some j := by
  rw [kind?]
  rcases f.kind? Γ with _ | _ | ⟨j, result⟩
  · simp
  · simp
  · simp only [Option.some.injEq, Kind.arrow.injEq]
    split_ifs with ht
    · simp [ht, eq_comm]
    · simp only [false_iff, not_exists, not_and]
      exact fun _ hj => hj.1 ▸ ht

end

theorem kind?_rename (Γ : KindScope) (ρ : Ref TyName → Ref TyName) (t : NamelessTy) :
    (t.rename ρ).kind? Γ = t.kind? (Γ ∘ ρ) := by
  induction t generalizing Γ ρ with
  | var | builtin => rfl
  | arrow s t ihs iht | app s t ihs iht => simp only [rename, kind?, ihs, iht]
  | all k t ih | lam k t ih => simp only [rename, kind?, ih, KindScope.push_comp_lift]

/-- The scope matters only where the type refers to it. -/
theorem kind?_congr {Γ Δ : KindScope} {t : NamelessTy} (h : ∀ r, t.Occurs r → Γ r = Δ r) :
    t.kind? Γ = t.kind? Δ := by
  have hpush : ∀ {Γ Δ : KindScope} {t : NamelessTy} (k : Kind),
      (∀ r, t.Occurs r.succ → Γ r = Δ r) → ∀ r, t.Occurs r → Γ.push k r = Δ.push k r := by
    intro Γ Δ t k h r hr
    cases r using Ref.succCases with
    | zero => rfl
    | succ r => simpa using h r hr
  induction t generalizing Γ Δ with
  | var r => exact h r rfl
  | builtin => rfl
  | arrow s t ihs iht | app s t ihs iht =>
    simp only [kind?, ihs fun r hr => h r (Or.inl hr), iht fun r hr => h r (Or.inr hr)]
  | all k t ih | lam k t ih => simp only [kind?, ih (hpush k h)]

/-- Every reference that occurs in a type with a kind is in scope. -/
theorem kind?_of_occurs {Γ : KindScope} {k : Kind} {t : NamelessTy} {r : Ref TyName}
    (h : t.kind? Γ = some k) (hr : t.Occurs r) : ∃ j, Γ r = some j := by
  induction t generalizing Γ k r with
  | var s => exact ⟨k, hr ▸ h⟩
  | builtin => exact hr.elim
  | arrow s t ihs iht =>
    obtain ⟨hs, ht, _⟩ := kind?_arrow.mp h
    exact hr.elim (ihs hs) (iht ht)
  | app f t ihf iht =>
    obtain ⟨j, hf, ht⟩ := kind?_app.mp h
    exact hr.elim (ihf hf) (iht ht)
  | all j t ih =>
    obtain ⟨i, hi⟩ := ih (kind?_all.mp h).1 hr
    exact ⟨i, by simpa using hi⟩
  | lam j t ih =>
    obtain ⟨result, ht, _⟩ := kind?_lam.mp h
    obtain ⟨i, hi⟩ := ih ht hr
    exact ⟨i, by simpa using hi⟩

/-- A type with a kind refers to what is in scope, so a renaming matters only there. -/
theorem rename_congr_of_kind? {Δ : KindScope} {t : NamelessTy} {k : Kind}
    (h : t.kind? Δ = some k) {ρ ρ' : Ref TyName → Ref TyName}
    (hρ : ∀ r j, Δ r = some j → ρ r = ρ' r) : t.rename ρ = t.rename ρ' := by
  refine rename_congr fun r hr => ?_
  obtain ⟨j, hj⟩ := kind?_of_occurs h hr
  exact hρ r j hj

/-- A substitution fits two scopes if it gives each reference a type of its kind. -/
def Subst.Fits (σ : Subst) (Γ Δ : KindScope) : Prop :=
  ∀ r k, Γ r = some k → (σ r).kind? Δ = some k

theorem Subst.Fits.lift {σ : Subst} {Γ Δ : KindScope} (h : σ.Fits Γ Δ) (k : Kind) :
    σ.lift.Fits (Γ.push k) (Δ.push k) := by
  intro r j hr
  cases r using Ref.succCases with
  | zero => exact hr
  | succ r =>
    rw [Subst.lift_succ, kind?_rename, KindScope.push_comp_succ]
    exact h r j (by simpa using hr)

theorem Subst.Fits.cons {σ : Subst} {Γ Δ : KindScope} {k : Kind} {t : NamelessTy}
    (h : σ.Fits Γ Δ) (ht : t.kind? Δ = some k) : Subst.Fits (Ref.cons t σ) (Γ.push k) Δ := by
  intro r j hr
  cases r using Ref.succCases with
  | zero => exact ht.trans hr
  | succ r =>
    rw [Ref.cons_succ]
    exact h r j (by simpa using hr)

theorem kind?_subst {σ : Subst} {Γ Δ : KindScope} {k : Kind} {t : NamelessTy} (hσ : σ.Fits Γ Δ)
    (h : t.kind? Γ = some k) : (t.subst σ).kind? Δ = some k := by
  induction t generalizing σ Γ Δ k with
  | var r => exact hσ r k h
  | builtin => exact h
  | arrow s t ihs iht =>
    obtain ⟨hs, ht, hk⟩ := kind?_arrow.mp h
    exact kind?_arrow.mpr ⟨ihs hσ hs, iht hσ ht, hk⟩
  | app f t ihf iht =>
    obtain ⟨j, hf, ht⟩ := kind?_app.mp h
    exact kind?_app.mpr ⟨j, ihf hσ hf, iht hσ ht⟩
  | all j t ih =>
    obtain ⟨ht, hk⟩ := kind?_all.mp h
    exact kind?_all.mpr ⟨ih (hσ.lift j) ht, hk⟩
  | lam j t ih =>
    obtain ⟨result, ht, hk⟩ := kind?_lam.mp h
    exact kind?_lam.mpr ⟨result, ih (hσ.lift j) ht, hk⟩

theorem kind?_inst {Γ : KindScope} {j k : Kind} {body argument : NamelessTy}
    (hb : body.kind? (Γ.push j) = some k) (ha : argument.kind? Γ = some j) :
    (body.inst argument).kind? Γ = some k :=
  kind?_subst (Subst.Fits.cons (fun _ _ h => h) ha) hb

theorem Step.kind? {Γ : KindScope} {k : Kind} {t t' : NamelessTy} (hs : Step t t')
    (h : t.kind? Γ = some k) : t'.kind? Γ = some k := by
  induction hs generalizing Γ k with
  | beta j body argument =>
    obtain ⟨i, hf, ha⟩ := kind?_app.mp h
    obtain ⟨result, hb, hk⟩ := kind?_lam.mp hf
    simp only [Kind.arrow.injEq] at hk
    obtain ⟨rfl, rfl⟩ := hk
    exact kind?_inst hb ha
  | arrowArgument t _ ih =>
    obtain ⟨hs, ht, hk⟩ := kind?_arrow.mp h
    exact kind?_arrow.mpr ⟨ih hs, ht, hk⟩
  | arrowResult s _ ih =>
    obtain ⟨hs, ht, hk⟩ := kind?_arrow.mp h
    exact kind?_arrow.mpr ⟨hs, ih ht, hk⟩
  | all j _ ih =>
    obtain ⟨ht, hk⟩ := kind?_all.mp h
    exact kind?_all.mpr ⟨ih ht, hk⟩
  | lam j _ ih =>
    obtain ⟨result, ht, hk⟩ := kind?_lam.mp h
    exact kind?_lam.mpr ⟨result, ih ht, hk⟩
  | appFunction t _ ih =>
    obtain ⟨j, hf, ht⟩ := kind?_app.mp h
    exact kind?_app.mpr ⟨j, ih hf, ht⟩
  | appArgument f _ ih =>
    obtain ⟨j, hf, ht⟩ := kind?_app.mp h
    exact kind?_app.mpr ⟨j, hf, ih ht⟩

/-- Reduction keeps the kind. -/
theorem Steps.kind? {Γ : KindScope} {k : Kind} {t t' : NamelessTy} (hs : Steps t t')
    (h : t.kind? Γ = some k) : t'.kind? Γ = some k := by
  induction hs with
  | refl => exact h
  | tail _ hstep ih => exact hstep.kind? ih

/-- Reduction brings in no references. -/
theorem Steps.occurs {t t' : NamelessTy} (hs : Steps t t') {r : Ref TyName} (h : t'.Occurs r) :
    t.Occurs r := by
  have hstep : ∀ {t t' : NamelessTy}, Step t t' → ∀ {r}, t'.Occurs r → t.Occurs r := by
    intro t t' hs
    induction hs with
    | beta => exact fun h => occurs_inst h
    | arrowArgument t _ ih | appFunction t _ ih => exact fun h => h.imp_left ih
    | arrowResult s _ ih | appArgument f _ ih => exact fun h => h.imp_right ih
    | all k _ ih | lam k _ ih => exact fun h => ih h
  induction hs with
  | refl => exact h
  | tail _ hs ih => exact ih (hstep hs h)

end NamelessTy

end FomegaLab
