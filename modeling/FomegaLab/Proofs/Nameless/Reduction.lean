-- Beta reduction of nameless types, and why it does not matter where it starts.
-- Steps may be taken anywhere; contracting all redexes of a type at once is the
-- complete development, which closes every fork of parallel steps. So a type has
-- one normal form at most.
import FomegaLab.Proofs.Nameless.Occurrence
import Mathlib.Logic.Relation

namespace FomegaLab.NamelessTy

/-- Contracts one redex, anywhere. -/
inductive Step : NamelessTy → NamelessTy → Prop
  | beta (k : Kind) (body argument : NamelessTy) :
      Step (app (lam k body) argument) (body.inst argument)
  | arrowArgument {s s' : NamelessTy} (t : NamelessTy) (h : Step s s') :
      Step (arrow s t) (arrow s' t)
  | arrowResult (s : NamelessTy) {t t' : NamelessTy} (h : Step t t') :
      Step (arrow s t) (arrow s t')
  | all (k : Kind) {t t' : NamelessTy} (h : Step t t') : Step (all k t) (all k t')
  | lam (k : Kind) {t t' : NamelessTy} (h : Step t t') : Step (lam k t) (lam k t')
  | appFunction {f f' : NamelessTy} (t : NamelessTy) (h : Step f f') : Step (app f t) (app f' t)
  | appArgument (f : NamelessTy) {t t' : NamelessTy} (h : Step t t') : Step (app f t) (app f t')

/-- Any number of steps. -/
abbrev Steps : NamelessTy → NamelessTy → Prop := Relation.ReflTransGen Step

theorem Step.subst {t t' : NamelessTy} (h : Step t t') (σ : Subst) :
    Step (t.subst σ) (t'.subst σ) := by
  induction h generalizing σ with
  | beta k body argument => rw [inst_subst]; exact .beta k _ _
  | arrowArgument t _ ih => exact .arrowArgument _ (ih σ)
  | arrowResult s _ ih => exact .arrowResult _ (ih σ)
  | all k _ ih => exact .all k (ih σ.lift)
  | lam k _ ih => exact .lam k (ih σ.lift)
  | appFunction t _ ih => exact .appFunction _ (ih σ)
  | appArgument f _ ih => exact .appArgument _ (ih σ)

/-! ## Many steps -/

namespace Steps

theorem map {t t' : NamelessTy} (f : NamelessTy → NamelessTy)
    (hf : ∀ {s s'}, Step s s' → Step (f s) (f s')) (h : Steps t t') : Steps (f t) (f t') :=
  h.lift f fun _ _ => hf

theorem arrow {s s' t t' : NamelessTy} (hs : Steps s s') (ht : Steps t t') :
    Steps (arrow s t) (arrow s' t') :=
  (hs.map (.arrow · t) (.arrowArgument t)).trans (ht.map (.arrow s' ·) (.arrowResult s'))

theorem app {f f' t t' : NamelessTy} (hf : Steps f f') (ht : Steps t t') :
    Steps (app f t) (app f' t') :=
  (hf.map (.app · t) (.appFunction t)).trans (ht.map (.app f' ·) (.appArgument f'))

theorem all (k : Kind) {t t' : NamelessTy} (h : Steps t t') : Steps (all k t) (all k t') :=
  h.map (.all k) (.all k)

theorem lam (k : Kind) {t t' : NamelessTy} (h : Steps t t') : Steps (lam k t) (lam k t') :=
  h.map (.lam k) (.lam k)

/-- An arrow only reduces to arrows. -/
theorem of_arrow {s t u : NamelessTy} (h : Steps (.arrow s t) u) :
    ∃ s' t', u = .arrow s' t' ∧ Steps s s' ∧ Steps t t' := by
  induction h with
  | refl => exact ⟨s, t, rfl, .refl, .refl⟩
  | tail _ hstep ih =>
    obtain ⟨s', t', rfl, hs, ht⟩ := ih
    cases hstep with
    | arrowArgument _ h => exact ⟨_, t', rfl, hs.tail h, ht⟩
    | arrowResult _ h => exact ⟨s', _, rfl, hs, ht.tail h⟩

theorem of_all {k : Kind} {t u : NamelessTy} (h : Steps (.all k t) u) :
    ∃ t', u = .all k t' ∧ Steps t t' := by
  induction h with
  | refl => exact ⟨t, rfl, .refl⟩
  | tail _ hstep ih =>
    obtain ⟨t', rfl, ht⟩ := ih
    cases hstep with
    | all _ h => exact ⟨_, rfl, ht.tail h⟩

theorem subst {t t' : NamelessTy} (h : Steps t t') (σ : Subst) :
    Steps (t.subst σ) (t'.subst σ) := h.map (·.subst σ) (Step.subst · σ)

theorem rename {t t' : NamelessTy} (h : Steps t t') (ρ : Ref TyName → Ref TyName) :
    Steps (t.rename ρ) (t'.rename ρ) := by
  rw [rename_eq_subst, rename_eq_subst]
  exact h.subst _

theorem subst_right {σ τ : Subst} (h : ∀ r, Steps (σ r) (τ r)) (t : NamelessTy) :
    Steps (t.subst σ) (t.subst τ) := by
  have hlift : ∀ {σ τ : Subst}, (∀ r, Steps (σ r) (τ r)) → ∀ r, Steps (σ.lift r) (τ.lift r) := by
    intro σ τ h r
    cases r using Ref.succCases with
    | zero => exact .refl
    | succ r =>
      rw [Subst.lift_succ, Subst.lift_succ]
      exact (h r).rename _
  induction t generalizing σ τ with
  | var r => exact h r
  | builtin => exact .refl
  | arrow s t ihs iht => exact (ihs h).arrow (iht h)
  | app f t ihf iht => exact (ihf h).app (iht h)
  | all k body ih => exact (ih (hlift h)).all k
  | lam k body ih => exact (ih (hlift h)).lam k

theorem inst {s s' t t' : NamelessTy} (hs : Steps s s') (ht : Steps t t') :
    Steps (s.inst t) (s'.inst t') := by
  refine (hs.subst _).trans (subst_right (fun r => ?_) s')
  cases r using Ref.succCases with
  | zero => exact ht
  | succ r => simp only [Ref.cons_succ]; exact .refl

end Steps

/-! ## Parallel steps -/

/-- Contracts any redexes of a type at once, but none that only arises by this. -/
inductive Par : NamelessTy → NamelessTy → Prop
  | var (r : Ref TyName) : Par (var r) (var r)
  | builtin (b : Builtin) : Par (builtin b) (builtin b)
  | arrow {s s' t t' : NamelessTy} (hs : Par s s') (ht : Par t t') : Par (arrow s t) (arrow s' t')
  | all (k : Kind) {t t' : NamelessTy} (h : Par t t') : Par (all k t) (all k t')
  | lam (k : Kind) {t t' : NamelessTy} (h : Par t t') : Par (lam k t) (lam k t')
  | app {f f' t t' : NamelessTy} (hf : Par f f') (ht : Par t t') : Par (app f t) (app f' t')
  | beta (k : Kind) {s s' t t' : NamelessTy} (hs : Par s s') (ht : Par t t') :
      Par (app (lam k s) t) (s'.inst t')

namespace Par

theorem refl : ∀ t : NamelessTy, Par t t
  | .var r => var r
  | .builtin b => builtin b
  | .arrow s t => arrow (refl s) (refl t)
  | .all k t => all k (refl t)
  | .lam k t => lam k (refl t)
  | .app f t => app (refl f) (refl t)

theorem of_step {t t' : NamelessTy} (h : Step t t') : Par t t' := by
  induction h with
  | beta k s t => exact beta k (refl s) (refl t)
  | arrowArgument t _ ih => exact arrow ih (refl t)
  | arrowResult s _ ih => exact arrow (refl s) ih
  | all k _ ih => exact all k ih
  | lam k _ ih => exact lam k ih
  | appFunction t _ ih => exact app ih (refl t)
  | appArgument f _ ih => exact app (refl f) ih

theorem steps {t t' : NamelessTy} (h : Par t t') : Steps t t' := by
  induction h with
  | var | builtin => exact .refl
  | arrow _ _ ihs iht => exact ihs.arrow iht
  | all k _ ih => exact ih.all k
  | lam k _ ih => exact ih.lam k
  | app _ _ ihf iht => exact ihf.app iht
  | beta k _ _ ihs iht => exact ((ihs.lam k).app iht).tail (.beta k _ _)

theorem rename {t t' : NamelessTy} (h : Par t t') (ρ : Ref TyName → Ref TyName) :
    Par (t.rename ρ) (t'.rename ρ) := by
  induction h generalizing ρ with
  | var r => exact var (ρ r)
  | builtin b => exact builtin b
  | arrow _ _ ihs iht => exact arrow (ihs ρ) (iht ρ)
  | all k _ ih => exact all k (ih _)
  | lam k _ ih => exact lam k (ih _)
  | app _ _ ihf iht => exact app (ihf ρ) (iht ρ)
  | beta k _ _ ihs iht => rw [inst_rename]; exact beta k (ihs _) (iht ρ)

theorem subst {t t' : NamelessTy} (h : Par t t') {σ τ : Subst} (hσ : ∀ r, Par (σ r) (τ r)) :
    Par (t.subst σ) (t'.subst τ) := by
  have hlift : ∀ {σ τ : Subst}, (∀ r, Par (σ r) (τ r)) → ∀ r, Par (σ.lift r) (τ.lift r) := by
    intro σ τ h r
    cases r using Ref.succCases with
    | zero => exact var _
    | succ r =>
      rw [Subst.lift_succ, Subst.lift_succ]
      exact (h r).rename _
  induction h generalizing σ τ with
  | var r => exact hσ r
  | builtin b => exact builtin b
  | arrow _ _ ihs iht => exact arrow (ihs hσ) (iht hσ)
  | all k _ ih => exact all k (ih (hlift hσ))
  | lam k _ ih => exact lam k (ih (hlift hσ))
  | app _ _ ihf iht => exact app (ihf hσ) (iht hσ)
  | beta k _ _ ihs iht => rw [inst_subst]; exact beta k (ihs (hlift hσ)) (iht hσ)

theorem inst {s s' t t' : NamelessTy} (hs : Par s s') (ht : Par t t') :
    Par (s.inst t) (s'.inst t') := by
  apply hs.subst
  intro r
  cases r using Ref.succCases with
  | zero => exact ht
  | succ r => simp only [Ref.cons_succ]; exact var r

end Par

/-! ## Confluence -/

/-- Contracts every redex of a type. -/
def develop : NamelessTy → NamelessTy
  | var r => var r
  | builtin b => builtin b
  | arrow s t => arrow s.develop t.develop
  | all k t => all k t.develop
  | lam k t => lam k t.develop
  | app (lam _ s) t => s.develop.inst t.develop
  | app f t => app f.develop t.develop

/-- What contracts some redexes can still contract the others. -/
theorem Par.par_develop {t t' : NamelessTy} (h : Par t t') : Par t' t.develop := by
  induction h with
  | var r => exact var r
  | builtin b => exact builtin b
  | arrow _ _ ihs iht => exact arrow ihs iht
  | all k _ ih => exact all k ih
  | lam k _ ih => exact lam k ih
  | beta k _ _ ihs iht => exact ihs.inst iht
  | @app f f' t t' hf _ ihf iht =>
    cases f with
    | lam k s =>
      cases hf with
      | lam _ hs =>
        cases ihf with
        | lam _ hs' => exact beta k hs' iht
    | _ => exact app ihf iht

theorem steps_of_pars {t t' : NamelessTy} (h : Relation.ReflTransGen Par t t') : Steps t t' := by
  induction h with
  | refl => exact .refl
  | tail _ hp ih => exact ih.trans hp.steps

/-- Two ways to reduce a type meet again. -/
theorem Steps.confluent {t u v : NamelessTy} (hu : Steps t u) (hv : Steps t v) :
    ∃ w, Steps u w ∧ Steps v w := by
  have hfork : ∀ a b c, Par a b → Par a c →
      ∃ d, Relation.ReflGen Par b d ∧ Relation.ReflTransGen Par c d :=
    fun a _ _ hb hc => ⟨a.develop, .single hb.par_develop, .single hc.par_develop⟩
  have hpar : Step ≤ Par := fun _ _ => Par.of_step
  have hpu := Relation.ReflTransGen.mono hpar _ _ hu
  have hpv := Relation.ReflTransGen.mono hpar _ _ hv
  obtain ⟨w, huw, hvw⟩ := Relation.church_rosser hfork hpu hpv
  exact ⟨w, steps_of_pars huw, steps_of_pars hvw⟩

/-! ## Normal forms -/

def isLam : NamelessTy → Bool
  | lam _ _ => true
  | _ => false

/-- No redex anywhere. -/
def Normal : NamelessTy → Prop
  | var _ => True
  | builtin _ => True
  | arrow argument result => argument.Normal ∧ result.Normal
  | all _ body => body.Normal
  | lam _ body => body.Normal
  | app function argument => function.isLam = false ∧ function.Normal ∧ argument.Normal

theorem Normal.no_step {t t' : NamelessTy} (h : t.Normal) : ¬ Step t t' := by
  intro hs
  induction hs with
  | beta k s t => exact absurd h.1 (by simp [isLam])
  | arrowArgument t _ ih => exact ih h.1
  | arrowResult s _ ih => exact ih h.2
  | all k _ ih => exact ih h
  | lam k _ ih => exact ih h
  | appFunction t _ ih => exact ih h.2.1
  | appArgument f _ ih => exact ih h.2.2

theorem Normal.eq_of_steps {t t' : NamelessTy} (h : t.Normal) (hs : Steps t t') : t' = t := by
  rcases Relation.ReflTransGen.cases_head hs with rfl | ⟨s, hts, _⟩
  · rfl
  · exact absurd hts h.no_step

@[simp] theorem isLam_rename (ρ : Ref TyName → Ref TyName) (t : NamelessTy) :
    (t.rename ρ).isLam = t.isLam := by
  cases t <;> rfl

theorem normal_rename (ρ : Ref TyName → Ref TyName) (t : NamelessTy) :
    (t.rename ρ).Normal ↔ t.Normal := by
  induction t generalizing ρ with
  | var | builtin => rfl
  | arrow s t ihs iht => exact and_congr (ihs ρ) (iht ρ)
  | all k t ih | lam k t ih => exact ih _
  | app f t ihf iht =>
    rw [rename, Normal, Normal, isLam_rename, ihf ρ, iht ρ]

/-- A type reduces to a normal type. -/
structure NormalForm (t n : NamelessTy) : Prop where
  steps : Steps t n
  normal : n.Normal

theorem Normal.normalForm {t : NamelessTy} (h : t.Normal) : NormalForm t t := ⟨.refl, h⟩

namespace NormalForm

theorem unique {t m n : NamelessTy} (hm : NormalForm t m) (hn : NormalForm t n) : m = n := by
  obtain ⟨w, hmw, hnw⟩ := hm.steps.confluent hn.steps
  rw [← hm.normal.eq_of_steps hmw, ← hn.normal.eq_of_steps hnw]

theorem rename {t n : NamelessTy} (h : NormalForm t n) (ρ : Ref TyName → Ref TyName) :
    NormalForm (t.rename ρ) (n.rename ρ) :=
  ⟨h.steps.rename ρ, (normal_rename ρ n).mpr h.normal⟩

/-- The normal form of a renamed type is a renamed normal form. -/
theorem of_rename {ρ : Ref TyName → Ref TyName} (hρ : Function.Injective ρ) {t n : NamelessTy}
    (h : NormalForm (t.rename ρ) n) : ∃ m, n = m.rename ρ ∧ NormalForm t m := by
  obtain ⟨ρ', hinv⟩ := exists_rename_rename hρ
  have hm := h.rename ρ'
  rw [hinv] at hm
  exact ⟨n.rename ρ', h.unique (hm.rename ρ), hm⟩

theorem arrow {s s' t t' : NamelessTy} (hs : NormalForm s s') (ht : NormalForm t t') :
    NormalForm (arrow s t) (arrow s' t') :=
  ⟨hs.steps.arrow ht.steps, hs.normal, ht.normal⟩

theorem all {t t' : NamelessTy} (h : NormalForm t t') (k : Kind) :
    NormalForm (all k t) (all k t') :=
  ⟨h.steps.all k, h.normal⟩

theorem lam {t t' : NamelessTy} (h : NormalForm t t') (k : Kind) :
    NormalForm (lam k t) (lam k t') :=
  ⟨h.steps.lam k, h.normal⟩

theorem app {f f' t t' : NamelessTy} (hf : NormalForm f f') (ht : NormalForm t t')
    (hl : f'.isLam = false) : NormalForm (app f t) (app f' t') :=
  ⟨hf.steps.app ht.steps, hl, hf.normal, ht.normal⟩

theorem of_steps {t t' n : NamelessTy} (h : Steps t t') (hn : NormalForm t' n) : NormalForm t n :=
  ⟨h.trans hn.steps, hn.normal⟩

/-- The normal form of an arrow is the arrow of the normal forms. -/
theorem of_arrow {s t n : NamelessTy} (h : NormalForm (.arrow s t) n) :
    ∃ s' t', n = .arrow s' t' ∧ NormalForm s s' ∧ NormalForm t t' := by
  obtain ⟨s', t', rfl, hs, ht⟩ := h.steps.of_arrow
  exact ⟨s', t', rfl, ⟨hs, h.normal.1⟩, ht, h.normal.2⟩

theorem of_all {k : Kind} {t n : NamelessTy} (h : NormalForm (.all k t) n) :
    ∃ t', n = .all k t' ∧ NormalForm t t' := by
  obtain ⟨t', rfl, ht⟩ := h.steps.of_all
  exact ⟨t', rfl, ht, h.normal⟩

/-- Reducing first does not change the normal form. -/
theorem after_steps {t t' n : NamelessTy} (hn : NormalForm t n) (h : Steps t t') :
    NormalForm t' n := by
  obtain ⟨w, hnw, htw⟩ := hn.steps.confluent h
  rw [hn.normal.eq_of_steps hnw] at htw
  exact ⟨htw, hn.normal⟩

end NormalForm

end FomegaLab.NamelessTy
