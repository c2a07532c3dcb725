-- Normalization of named types. What it returns is the normal form, whatever the
-- fuel. With enough fuel it returns: a type with a kind terminates, and the fuel
-- that suffices does not depend on the names.
import FomegaLab.Named.Normal
import FomegaLab.Proofs.Named.Subst
import FomegaLab.Proofs.Nameless.Termination
import FomegaLab.Proofs.Runs

namespace FomegaLab.Ty

open NamelessTy (NormalForm Evals)

section Runs

variable {contracted : Ty → OptionT Fresh Ty} {n m : Int} {u : Ty}

theorem run_normalizeWith_arrow {s t : Ty} :
    ((arrow s t).normalizeWith contracted).run n = (some u, m) ↔
      ∃ s' k t', (s.normalizeWith contracted).run n = (some s', k) ∧
        (t.normalizeWith contracted).run k = (some t', m) ∧ arrow s' t' = u := by
  simp only [normalizeWith, Fresh.run_bind_eq_some, Fresh.run_pure_eq_some]
  constructor
  · rintro ⟨s', k, hs, t', _, ht, hu, rfl⟩
    exact ⟨s', k, t', hs, ht, hu⟩
  · rintro ⟨s', k, t', hs, ht, hu⟩
    exact ⟨s', k, hs, t', m, ht, hu, rfl⟩

theorem run_normalizeWith_all {a : TyName} {kind : Kind} {t : Ty} :
    ((all a kind t).normalizeWith contracted).run n = (some u, m) ↔
      ∃ t', (t.normalizeWith contracted).run n = (some t', m) ∧ all a kind t' = u := by
  simp only [normalizeWith, Fresh.run_bind_eq_some, Fresh.run_pure_eq_some]
  constructor
  · rintro ⟨t', _, ht, hu, rfl⟩
    exact ⟨t', ht, hu⟩
  · rintro ⟨t', ht, hu⟩
    exact ⟨t', m, ht, hu, rfl⟩

theorem run_normalizeWith_lam {a : TyName} {kind : Kind} {t : Ty} :
    ((lam a kind t).normalizeWith contracted).run n = (some u, m) ↔
      ∃ t', (t.normalizeWith contracted).run n = (some t', m) ∧ lam a kind t' = u := by
  simp only [normalizeWith, Fresh.run_bind_eq_some, Fresh.run_pure_eq_some]
  constructor
  · rintro ⟨t', _, ht, hu, rfl⟩
    exact ⟨t', ht, hu⟩
  · rintro ⟨t', ht, hu⟩
    exact ⟨t', m, ht, hu, rfl⟩

/-- What becomes of an application whose parts are normal. -/
def applyNormal (contracted : Ty → OptionT Fresh Ty) (function argument : Ty) :
    OptionT Fresh Ty := do
  match function with
  | .lam a _ body =>
    let body ← body.subst a argument
    contracted body
  | function => return .app function argument

theorem run_normalizeWith_app {f t : Ty} :
    ((app f t).normalizeWith contracted).run n = (some u, m) ↔
      ∃ f' k t' l, (f.normalizeWith contracted).run n = (some f', k) ∧
        (t.normalizeWith contracted).run k = (some t', l) ∧
          (applyNormal contracted f' t').run l = (some u, m) := by
  have happ : (app f t).normalizeWith contracted = (do
      let f' ← f.normalizeWith contracted
      let t' ← t.normalizeWith contracted
      applyNormal contracted f' t') := rfl
  simp only [happ, Fresh.run_bind_eq_some]
  constructor
  · rintro ⟨f', k, hf, t', l, ht, h⟩
    exact ⟨f', k, t', l, hf, ht, h⟩
  · rintro ⟨f', k, t', l, hf, ht, h⟩
    exact ⟨f', k, hf, t', l, ht, h⟩

theorem run_applyNormal_lam {a : TyName} {kind : Kind} {body t : Ty} :
    (applyNormal contracted (lam a kind body) t).run n = (some u, m) ↔
      (contracted (body.subst a t n).1).run (body.subst a t n).2 = (some u, m) := by
  simp only [applyNormal, Fresh.run_bind_eq_some, Fresh.run_lift_eq_some]
  constructor
  · rintro ⟨b, k, hb, h⟩
    rw [hb]
    exact h
  · intro h
    exact ⟨_, _, rfl, h⟩

theorem run_applyNormal {f t : Ty} (hf : f.nameless.isLam = false) :
    (applyNormal contracted f t).run n = (some u, m) ↔ app f t = u ∧ n = m := by
  cases f with
  | lam => cases hf
  | _ => exact Fresh.run_pure_eq_some

end Runs

/-! ## Whatever is returned is the normal form -/

/-- What a normalization returns, when it does. -/
structure NormalizeSpec (n : Int) (t t' : Ty) (m : Int) : Prop where
  le : n ≤ m
  below : t'.Below m
  normalForm : NormalForm t.nameless t'.nameless

theorem normalizeWith_sound {contracted : Ty → OptionT Fresh Ty}
    (hcontracted : ∀ {t t' : Ty} {n m : Int}, t.Below n →
      (contracted t).run n = (some t', m) → NormalizeSpec n t t' m)
    {t t' : Ty} {n m : Int} (hb : t.Below n)
    (h : (t.normalizeWith contracted).run n = (some t', m)) : NormalizeSpec n t t' m := by
  induction t generalizing t' n m with
  | var a =>
    obtain ⟨rfl, rfl⟩ := Fresh.run_pure_eq_some.mp h
    exact ⟨Int.le_refl _, hb, .refl, trivial⟩
  | builtin b =>
    obtain ⟨rfl, rfl⟩ := Fresh.run_pure_eq_some.mp h
    exact ⟨Int.le_refl _, hb, .refl, trivial⟩
  | arrow s t ihs iht =>
    obtain ⟨s', k, t', hs, ht, rfl⟩ := run_normalizeWith_arrow.mp h
    obtain ⟨hle₁, hb₁, hn₁⟩ := ihs hb.1 hs
    obtain ⟨hle₂, hb₂, hn₂⟩ := iht (hb.2.mono hle₁) ht
    exact ⟨by omega, ⟨hb₁.mono hle₂, hb₂⟩, hn₁.arrow hn₂⟩
  | all a kind t ih =>
    obtain ⟨t', ht, rfl⟩ := run_normalizeWith_all.mp h
    obtain ⟨hle, hb', hn⟩ := ih hb.2 ht
    exact ⟨hle, ⟨Int.lt_of_lt_of_le hb.1 hle, hb'⟩, (hn.rename _).all kind⟩
  | lam a kind t ih =>
    obtain ⟨t', ht, rfl⟩ := run_normalizeWith_lam.mp h
    obtain ⟨hle, hb', hn⟩ := ih hb.2 ht
    exact ⟨hle, ⟨Int.lt_of_lt_of_le hb.1 hle, hb'⟩, (hn.rename _).lam kind⟩
  | app f t ihf iht =>
    obtain ⟨f', k, t', l, hf, ht, h⟩ := run_normalizeWith_app.mp h
    obtain ⟨hle₁, hb₁, hn₁⟩ := ihf hb.1 hf
    obtain ⟨hle₂, hb₂, hn₂⟩ := iht (hb.2.mono hle₁) ht
    cases hl : f'.nameless.isLam with
    | false =>
      obtain ⟨rfl, rfl⟩ := (run_applyNormal hl).mp h
      exact ⟨by omega, ⟨hb₁.mono hle₂, hb₂⟩, hn₁.app hn₂ hl⟩
    | true =>
      cases f' with
      | lam a kind body =>
        have hsubst := subst_spec (hb₁.2.mono hle₂) (Int.lt_of_lt_of_le hb₁.1 hle₂) hb₂
        obtain ⟨hle₃, hb₃, hn₃⟩ := hcontracted hsubst.below (run_applyNormal_lam.mp h)
        refine ⟨by have := hsubst.le; omega, hb₃, .of_steps ?_ hn₃⟩
        rw [hsubst.nameless_eq_inst]
        exact (hn₁.steps.app hn₂.steps).tail (.beta kind _ _)
      | _ => cases hl

theorem normalize_sound {fuel : Nat} {t t' : Ty} {n m : Int} (hb : t.Below n)
    (h : (t.normalize fuel).run n = (some t', m)) : NormalizeSpec n t t' m := by
  induction fuel generalizing t t' n m with
  | zero => exact normalizeWith_sound (fun _ h => absurd h Fresh.run_failure_ne_some) hb h
  | succ fuel ih => exact normalizeWith_sound ih hb h

/-! ## Enough fuel -/

/-- What a normalization leaves contracted redexes to. -/
def normalizeAfter : Nat → Ty → OptionT Fresh Ty
  | 0 => fun _ => failure
  | fuel + 1 => normalize fuel

theorem normalize_eq (fuel : Nat) (t : Ty) :
    t.normalize fuel = t.normalizeWith (normalizeAfter fuel) := by
  cases fuel <;> rfl

/-- Normalization returns a type with the nameless form `v`, up to `ρ`, which binds the names
of outer binders. -/
def NormalizesTo (fuel : Nat) (ρ : Ref TyName → Ref TyName) (t : Ty) (v : NamelessTy) : Prop :=
  ∀ n, t.Below n → ∃ t' m, (t.normalize fuel).run n = (some t', m) ∧ t'.nameless.rename ρ = v

namespace NormalizesTo

variable {fuel : Nat} {ρ : Ref TyName → Ref TyName} {a : TyName} {s t f : Ty}
  {S T F : NamelessTy}

theorem var (a : TyName) : NormalizesTo fuel ρ (.var a) (.var (ρ (.free a))) :=
  fun n _ => ⟨.var a, n, by rw [normalize_eq]; rfl, rfl⟩

theorem builtin (b : Builtin) : NormalizesTo fuel ρ (.builtin b) (.builtin b) :=
  fun n _ => ⟨.builtin b, n, by rw [normalize_eq]; rfl, rfl⟩

theorem arrow (hs : NormalizesTo fuel ρ s S) (ht : NormalizesTo fuel ρ t T) :
    NormalizesTo fuel ρ (.arrow s t) (.arrow S T) := by
  intro n hb
  obtain ⟨s', k, hrun₁, rfl⟩ := hs n hb.1
  obtain ⟨t', m, hrun₂, rfl⟩ := ht k (hb.2.mono (normalize_sound hb.1 hrun₁).le)
  rw [normalize_eq] at hrun₁ hrun₂
  refine ⟨.arrow s' t', m, ?_, rfl⟩
  rw [normalize_eq]
  exact run_normalizeWith_arrow.mpr ⟨s', k, t', hrun₁, hrun₂, rfl⟩

theorem all (kind : Kind) (h : NormalizesTo fuel (Ref.lift ρ ∘ Ref.bind a) t T) :
    NormalizesTo fuel ρ (.all a kind t) (.all kind T) := by
  intro n hb
  obtain ⟨t', m, hrun, rfl⟩ := h n hb.2
  rw [normalize_eq] at hrun
  refine ⟨.all a kind t', m, ?_, ?_⟩
  · rw [normalize_eq]
    exact run_normalizeWith_all.mpr ⟨t', hrun, rfl⟩
  · rw [nameless, NamelessTy.rename, NamelessTy.abstract, NamelessTy.rename_rename]

theorem lam (kind : Kind) (h : NormalizesTo fuel (Ref.lift ρ ∘ Ref.bind a) t T) :
    NormalizesTo fuel ρ (.lam a kind t) (.lam kind T) := by
  intro n hb
  obtain ⟨t', m, hrun, rfl⟩ := h n hb.2
  rw [normalize_eq] at hrun
  refine ⟨.lam a kind t', m, ?_, ?_⟩
  · rw [normalize_eq]
    exact run_normalizeWith_lam.mpr ⟨t', hrun, rfl⟩
  · rw [nameless, NamelessTy.rename, NamelessTy.abstract, NamelessTy.rename_rename]

theorem app (hf : NormalizesTo fuel ρ f F) (ht : NormalizesTo fuel ρ t T) (hl : F.isLam = false) :
    NormalizesTo fuel ρ (.app f t) (.app F T) := by
  intro n hb
  obtain ⟨f', k, hrun₁, rfl⟩ := hf n hb.1
  obtain ⟨t', m, hrun₂, rfl⟩ := ht k (hb.2.mono (normalize_sound hb.1 hrun₁).le)
  rw [NamelessTy.isLam_rename] at hl
  rw [normalize_eq] at hrun₁ hrun₂
  refine ⟨.app f' t', m, ?_, rfl⟩
  rw [normalize_eq]
  exact run_normalizeWith_app.mpr
    ⟨f', k, t', m, hrun₁, hrun₂, (run_applyNormal hl).mpr ⟨rfl, rfl⟩⟩

/-- Contracting a redex takes one unit of the fuel. -/
theorem beta {kind : Kind} {B : NamelessTy} (hf : NormalizesTo (fuel + 1) ρ f (.lam kind B))
    (ht : NormalizesTo (fuel + 1) ρ t T)
    (hcontracted : ∀ {u : Ty}, u.nameless.rename ρ = B.inst T → NormalizesTo fuel ρ u S) :
    NormalizesTo (fuel + 1) ρ (.app f t) S := by
  intro n hb
  obtain ⟨f', k, hrun₁, hF⟩ := hf n hb.1
  obtain ⟨hk, hbf, _⟩ := normalize_sound hb.1 hrun₁
  obtain ⟨t', l, hrun₂, rfl⟩ := ht k (hb.2.mono hk)
  obtain ⟨hl, hbt, _⟩ := normalize_sound (hb.2.mono hk) hrun₂
  cases f' with
  | lam a kind body =>
    cases hF
    have hsubst := subst_spec (hbf.2.mono hl) (Int.lt_of_lt_of_le hbf.1 hl) hbt
    have hinst : (body.subst a t' l).1.nameless.rename ρ =
        ((body.nameless.abstract a).rename (Ref.lift ρ)).inst (t'.nameless.rename ρ) := by
      rw [hsubst.nameless_eq_inst, NamelessTy.inst_rename]
    obtain ⟨u, m, hrun₃, hS⟩ := hcontracted hinst _ hsubst.below
    refine ⟨u, m, ?_, hS⟩
    exact run_normalizeWith_app.mpr
      ⟨_, k, t', l, hrun₁, hrun₂, run_applyNormal_lam.mpr hrun₃⟩
  | _ => cases hF

end NormalizesTo

/-- Normalization follows an evaluation of the nameless form. The recursion is on the
evaluation, in which the names of outer binders are no longer free: `ρ` bound them. -/
theorem normalizesTo_of_evals {d : Nat} {u v : NamelessTy} (h : Evals d u v) {fuel : Nat}
    (hd : d ≤ fuel) {t : Ty} {ρ : Ref TyName → Ref TyName} (ht : t.nameless.rename ρ = u) :
    NormalizesTo fuel ρ t v := by
  induction h generalizing fuel t ρ with
  | var d r =>
    cases t <;> cases ht
    exact .var _
  | builtin d b =>
    cases t <;> cases ht
    exact .builtin b
  | arrow _ _ ihs iht =>
    cases t <;> cases ht
    exact .arrow (ihs hd rfl) (iht hd rfl)
  | all k _ ih =>
    cases t <;> cases ht
    exact .all k (ih hd (NamelessTy.rename_rename _ _ _).symm)
  | lam k _ ih =>
    cases t <;> cases ht
    exact .lam k (ih hd (NamelessTy.rename_rename _ _ _).symm)
  | app _ _ hl ihf iht =>
    cases t <;> cases ht
    exact .app (ihf hd rfl) (iht hd rfl) hl
  | beta _ _ _ ihf iht ih =>
    cases t <;> cases ht
    cases fuel with
    | zero => omega
    | succ fuel => exact .beta (ihf hd rfl) (iht hd rfl) (ih (Nat.le_of_succ_le_succ hd))

/-- Normalization reaches what an evaluation of the nameless form reaches. -/
theorem exists_normalize_of_evals {d : Nat} {t : Ty} {v : NamelessTy} (h : Evals d t.nameless v)
    {fuel : Nat} (hd : d ≤ fuel) {n : Int} (hb : t.Below n) :
    ∃ t' m, (t.normalize fuel).run n = (some t', m) ∧ NormalizeSpec n t t' m := by
  obtain ⟨t', m, hrun, _⟩ := normalizesTo_of_evals h hd (NamelessTy.rename_id _) _ hb
  exact ⟨t', m, hrun, normalize_sound hb hrun⟩

/-- With enough fuel, normalization finds the normal form of a type with a kind. The
fuel depends on the nameless form only. -/
theorem exists_normalize {u : NamelessTy} {Γ : KindScope} {k : Kind} (h : u.kind? Γ = some k) :
    ∃ d, ∀ fuel ≥ d, ∀ t n, t.nameless = u → t.Below n →
      ∃ t' m, (t.normalize fuel).run n = (some t', m) ∧ NormalizeSpec n t t' m := by
  obtain ⟨d, v, hd⟩ := NamelessTy.exists_evals h
  refine ⟨d, ?_⟩
  intro fuel hfuel t n ht hb
  subst ht
  exact exists_normalize_of_evals hd hfuel hb

end FomegaLab.Ty
