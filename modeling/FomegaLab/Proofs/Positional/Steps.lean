-- Reducing positional types step by step. A step contracts one redex of the meaning, so
-- it keeps the kind, and a type without a step means a normal type. So stepping ends,
-- because types with a kind stop reducing wherever they are reduced, and it ends where
-- normalizing does, because a normal form is unique and a type is read off its meaning.
import FomegaLab.Proofs.Positional.Denotation

namespace FomegaLab

open NamelessTy (NormalForm Terminates)

namespace PosTy

attribute [local simp] step

/-! ## What a step can do -/

/-- An application of anything but a lambda steps in its parts, the function first. -/
theorem step_app {f : PosTy} (hf : ∀ b, f ≠ lam b) (t : PosTy) (k : Kind) :
    (app f t k).step =
      match f.step with
      | some f' => some (app f' t k)
      | none =>
        match t.step with
        | some t' => some (app f t' k)
        | none => none := by
  cases f with
  | lam b => exact absurd rfl (hf b)
  | _ => rfl

theorem step_arrow_eq_some {s t r : PosTy} : (arrow s t).step = some r ↔
    (∃ s', s.step = some s' ∧ arrow s' t = r) ∨
      s.step = none ∧ ∃ t', t.step = some t' ∧ arrow s t' = r := by
  rw [step]
  cases s.step <;> cases t.step <;> simp

theorem step_all_eq_some {k : Kind} {t r : PosTy} :
    (all k t).step = some r ↔ ∃ t', t.step = some t' ∧ all k t' = r := by
  rw [step]
  cases t.step <;> simp

theorem step_lam_eq_some {t r : PosTy} :
    (lam t).step = some r ↔ ∃ t', t.step = some t' ∧ lam t' = r := by
  rw [step]
  cases t.step <;> simp

/-- A redex is contracted before anything in it. -/
theorem step_app_eq_some {f t r : PosTy} {k : Kind} : (app f t k).step = some r ↔
    (∃ b, f = lam b ∧ b.instantiate t = r) ∨ (∀ b, f ≠ lam b) ∧
      ((∃ f', f.step = some f' ∧ app f' t k = r) ∨
        f.step = none ∧ ∃ t', t.step = some t' ∧ app f t' k = r) := by
  by_cases hl : ∀ b, f ≠ lam b
  · have hnot : ¬ ∃ b, f = lam b ∧ b.instantiate t = r := fun ⟨b, hb, _⟩ => hl b hb
    rw [step_app hl, or_iff_right hnot, and_iff_right hl]
    cases f.step <;> cases t.step <;> simp
  · obtain ⟨b, hb⟩ := not_forall.mp hl
    obtain rfl := not_not.mp hb
    simp

/-! ## Types without a step -/

theorem step_arrow_eq_none {s t : PosTy} :
    (arrow s t).step = none ↔ s.step = none ∧ t.step = none := by
  rw [step]
  cases s.step <;> cases t.step <;> simp

theorem step_all_eq_none {k : Kind} {t : PosTy} : (all k t).step = none ↔ t.step = none := by
  rw [step]
  cases t.step <;> simp

theorem step_lam_eq_none {t : PosTy} : (lam t).step = none ↔ t.step = none := by
  rw [step]
  cases t.step <;> simp

theorem step_app_eq_none {f t : PosTy} {k : Kind} :
    (app f t k).step = none ↔ (∀ b, f ≠ lam b) ∧ f.step = none ∧ t.step = none := by
  constructor
  · intro h
    have hf : ∀ b, f ≠ lam b := by
      rintro b rfl
      cases h
    rw [step_app hf] at h
    cases hs : f.step with
    | some f' =>
      rw [hs] at h
      cases h
    | none =>
      cases ht : t.step with
      | some t' =>
        rw [hs, ht] at h
        cases h
      | none => exact ⟨hf, rfl, rfl⟩
  · rintro ⟨hf, hs, ht⟩
    rw [step_app hf, hs, ht]

theorem step_shift {t : PosTy} (h : t.step = none) (amount cutoff : Int) :
    (t.shift amount cutoff).step = none := by
  induction t generalizing cutoff with
  | var | builtin => rfl
  | arrow s t ihs iht =>
    obtain ⟨hs, ht⟩ := step_arrow_eq_none.mp h
    exact step_arrow_eq_none.mpr ⟨ihs hs cutoff, iht ht cutoff⟩
  | all k t ih => exact step_all_eq_none.mpr (ih (step_all_eq_none.mp h) _)
  | lam t ih => exact step_lam_eq_none.mpr (ih (step_lam_eq_none.mp h) _)
  | app f t k ihf iht =>
    obtain ⟨hl, hf, ht⟩ := step_app_eq_none.mp h
    refine step_app_eq_none.mpr ⟨?_, ihf hf cutoff, iht ht cutoff⟩
    intro b hb
    cases f with
    | lam b' => exact hl b' rfl
    | _ => cases hb

/-! ## What the grammar of normal types says -/

theorem isNormal_of_isNeutral {t : PosTy} (h : t.isNeutral = true) : t.isNormal = true := by
  cases t with
  | var i => rfl
  | app f t k => exact h
  | _ => cases h

theorem step_eq_none_of_isNormal {t : PosTy} (h : t.isNormal = true) : t.step = none := by
  induction t with
  | var | builtin => rfl
  | arrow s t ihs iht =>
    simp only [isNormal, Bool.and_eq_true] at h
    exact step_arrow_eq_none.mpr ⟨ihs h.1, iht h.2⟩
  | all k t ih => exact step_all_eq_none.mpr (ih h)
  | lam t ih => exact step_lam_eq_none.mpr (ih h)
  | app f t k ihf iht =>
    simp only [isNormal, Bool.and_eq_true] at h
    refine step_app_eq_none.mpr ⟨?_, ihf (isNormal_of_isNeutral h.1), iht h.2⟩
    rintro b rfl
    cases h.1

/-- With a kind, a type without a step is in the grammar. Without one it need not be: a
builtin type may stand in front of an argument. -/
theorem isNormal_of_step_eq_none {D : List Kind} {k : Kind} {t : PosTy}
    (hk : t.hasKind D k = true) (h : t.step = none) : t.isNormal = true := by
  induction t generalizing D k with
  | var | builtin => rfl
  | arrow s t ihs iht =>
    simp only [hasKind, Bool.and_eq_true] at hk
    obtain ⟨hs, ht⟩ := step_arrow_eq_none.mp h
    rw [isNormal, ihs hk.1.2 hs, iht hk.2 ht]
    rfl
  | all j t ih =>
    simp only [hasKind, Bool.and_eq_true] at hk
    exact ih hk.2 (step_all_eq_none.mp h)
  | lam t ih =>
    cases k with
    | star => cases hk
    | arrow j k => exact ih hk (step_lam_eq_none.mp h)
  | app f t j ihf iht =>
    simp only [hasKind, Bool.and_eq_true] at hk
    obtain ⟨hl, hf, ht⟩ := step_app_eq_none.mp h
    have hneutral : f.isNeutral = true := by
      have hnormal := ihf hk.1 hf
      cases f with
      | var i => rfl
      | app f s i => exact hnormal
      | lam b => exact absurd rfl (hl b)
      | builtin b => cases hk.1
      | arrow s r => simp [hasKind] at hk
      | all i s => simp [hasKind] at hk
    rw [isNormal, hneutral, iht hk.2 ht]
    rfl

/-! ## What normalizing does to them -/

theorem normalizeWith_eq_self (contracted : PosTy → Option PosTy) {t : PosTy}
    (h : t.step = none) : t.normalizeWith contracted = some t := by
  induction t with
  | var | builtin => rfl
  | arrow s t ihs iht =>
    obtain ⟨hs, ht⟩ := step_arrow_eq_none.mp h
    rw [normalizeWith, ihs hs, iht ht]
    rfl
  | all k t ih =>
    rw [normalizeWith, ih (step_all_eq_none.mp h)]
    rfl
  | lam t ih =>
    rw [normalizeWith, ih (step_lam_eq_none.mp h)]
    rfl
  | app f t k ihf iht =>
    obtain ⟨hl, hf, ht⟩ := step_app_eq_none.mp h
    rw [normalizeWith, ihf hf, iht ht]
    cases f with
    | lam b => exact absurd rfl (hl b)
    | _ => rfl

theorem normalize_eq_self (fuel : Nat) {t : PosTy} (h : t.step = none) :
    t.normalize fuel = some t := by
  rw [normalize_eq, normalizeWith_eq_self _ h]

theorem step_eq_none_of_normalizeWith {contracted : PosTy → Option PosTy}
    (hc : ∀ {t t'}, contracted t = some t' → t'.step = none) {t t' : PosTy}
    (h : t.normalizeWith contracted = some t') : t'.step = none := by
  induction t generalizing t' with
  | var | builtin =>
    cases h
    rfl
  | arrow s t ihs iht =>
    simp only [normalizeWith, Option.bind_eq_bind, Option.bind_eq_some_iff] at h
    obtain ⟨s', hs, t'', ht, h⟩ := h
    cases h
    exact step_arrow_eq_none.mpr ⟨ihs hs, iht ht⟩
  | all k t ih =>
    simp only [normalizeWith, Option.bind_eq_bind, Option.bind_eq_some_iff] at h
    obtain ⟨t'', ht, h⟩ := h
    cases h
    exact step_all_eq_none.mpr (ih ht)
  | lam t ih =>
    simp only [normalizeWith, Option.bind_eq_bind, Option.bind_eq_some_iff] at h
    obtain ⟨t'', ht, h⟩ := h
    cases h
    exact step_lam_eq_none.mpr (ih ht)
  | app f t k ihf iht =>
    simp only [normalizeWith, Option.bind_eq_bind, Option.bind_eq_some_iff] at h
    obtain ⟨f', hf, t'', ht, h⟩ := h
    cases f' with
    | lam b => exact hc h
    | _ =>
      cases h
      refine step_app_eq_none.mpr ⟨fun b hb => ?_, ihf hf, iht ht⟩
      cases hb

/-- What normalizing returns has no step, whatever its kind. -/
theorem step_eq_none_of_normalize {fuel : Nat} {t t' : PosTy} (h : t.normalize fuel = some t') :
    t'.step = none := by
  induction fuel generalizing t t' with
  | zero => exact step_eq_none_of_normalizeWith (fun h => by cases h) h
  | succ fuel ih => exact step_eq_none_of_normalizeWith ih h

end PosTy

/-! ## Steps and meanings -/

namespace Denotes

variable {D : List Kind} {k : Kind} {t : PosTy} {u : NamelessTy}

/-- A type is read off its meaning at a kind. -/
theorem injective {t' : PosTy} (h : Denotes D k t u) (h' : Denotes D k t' u) : t = t' := by
  induction h generalizing t' with
  | var hi _ =>
    cases h' with
    | var hi' _ => rw [hi, hi']
  | arrow _ _ ihs iht =>
    cases h' with
    | arrow hs ht => rw [ihs hs, iht ht]
  | all _ ih =>
    cases h' with
    | all h => rw [ih h]
  | builtin b =>
    cases h'
    rfl
  | lam _ ih =>
    cases h' with
    | lam h => rw [ih h]
  | app hf _ ihf iht =>
    cases h' with
    | app hf' ht' =>
      -- the kind of the argument is not in the meaning, but the function has it
      have hkind := hf.kind?_eq.symm.trans hf'.kind?_eq
      cases hkind
      rw [ihf hf', iht ht']

/-- A step of a type is a step of its meaning. -/
theorem step {t' : PosTy} (h : Denotes D k t u) (ht : t.step = some t') :
    ∃ u', Denotes D k t' u' ∧ NamelessTy.Step u u' := by
  induction h generalizing t' with
  | var | builtin => cases ht
  | arrow hs hr ihs ihr =>
    rcases PosTy.step_arrow_eq_some.mp ht with ⟨s', hs', rfl⟩ | ⟨_, r', hr', rfl⟩
    · obtain ⟨S', hS', hstep⟩ := ihs hs'
      exact ⟨_, hS'.arrow hr, .arrowArgument _ hstep⟩
    · obtain ⟨R', hR', hstep⟩ := ihr hr'
      exact ⟨_, hs.arrow hR', .arrowResult _ hstep⟩
  | all _ ih =>
    obtain ⟨b', hb', rfl⟩ := PosTy.step_all_eq_some.mp ht
    obtain ⟨B', hB', hstep⟩ := ih hb'
    exact ⟨_, hB'.all, .all _ hstep⟩
  | lam _ ih =>
    obtain ⟨b', hb', rfl⟩ := PosTy.step_lam_eq_some.mp ht
    obtain ⟨B', hB', hstep⟩ := ih hb'
    exact ⟨_, hB'.lam, .lam _ hstep⟩
  | app hf hs ihf ihs =>
    rcases PosTy.step_app_eq_some.mp ht with ⟨b, rfl, rfl⟩ |
      ⟨_, ⟨f', hf', rfl⟩ | ⟨_, s', hs', rfl⟩⟩
    · cases hf with
      | lam hb => exact ⟨_, hb.instantiate hs, .beta _ _ _⟩
    · obtain ⟨F', hF', hstep⟩ := ihf hf'
      exact ⟨_, hF'.app hs, .appFunction _ hstep⟩
    · obtain ⟨S', hS', hstep⟩ := ihs hs'
      exact ⟨_, hf.app hS', .appArgument _ hstep⟩

/-- A type without a step means a normal type. -/
theorem normal_of_step_eq_none (h : Denotes D k t u) (ht : t.step = none) : u.Normal := by
  induction h with
  | var | builtin => trivial
  | arrow _ _ ihs iht =>
    obtain ⟨hs, ht⟩ := PosTy.step_arrow_eq_none.mp ht
    exact ⟨ihs hs, iht ht⟩
  | all _ ih => exact ih (PosTy.step_all_eq_none.mp ht)
  | lam _ ih => exact ih (PosTy.step_lam_eq_none.mp ht)
  | app hf _ ihf iht =>
    obtain ⟨hl, hsf, hst⟩ := PosTy.step_app_eq_none.mp ht
    refine ⟨?_, ihf hsf, iht hst⟩
    cases hf with
    | lam => exact absurd rfl (hl _)
    | _ => rfl

/-- Stepping ends, at a type that means the normal form. -/
theorem exists_last_step (h : Denotes D k t u) :
    ∃ n t' u', (· >>= PosTy.step)^[n] (some t) = some t' ∧ t'.step = none ∧
      Denotes D k t' u' ∧ NormalForm u u' := by
  have hterm : Terminates u := NamelessTy.terminates_of_kind h.kind?_eq
  induction hterm generalizing t with
  | intro u _ ih =>
    cases ht : t.step with
    | none => exact ⟨0, t, u, rfl, ht, h, (h.normal_of_step_eq_none ht).normalForm⟩
    | some t₁ =>
      obtain ⟨u₁, hu₁, hstep⟩ := h.step ht
      obtain ⟨n, t', u', hn, hlast, hu', hform⟩ := ih u₁ hstep hu₁
      refine ⟨n + 1, t', u', ?_, hlast, hu', .of_steps (.single hstep) hform⟩
      rw [Function.iterate_succ_apply]
      exact (congrArg _ ht).trans hn

end Denotes

/-! ## Kinds along the steps -/

namespace PosTy

variable {D : List Kind} {k : Kind} {t : PosTy}

theorem hasKind_of_step {t' : PosTy} (hk : t.hasKind D k = true) (h : t.step = some t') :
    t'.hasKind D k = true := by
  obtain ⟨u, hu⟩ := Denotes.exists_of_hasKind hk
  obtain ⟨u', hu', _⟩ := hu.step h
  exact hu'.hasKind

/-- Every type that repeated steps reach has the kind of the first one. -/
theorem hasKind_of_mem_trace {limit : Nat} {t' : PosTy} (hk : t.hasKind D k = true)
    (h : some t' ∈ t.trace limit) : t'.hasKind D k = true := by
  induction limit generalizing t with
  | zero => cases h
  | succ limit ih =>
    rw [trace] at h
    cases hs : t.step with
    | none => simp [hs] at h
    | some s =>
      rw [hs] at h
      rcases List.mem_cons.mp h with heq | hmem
      · cases heq
        exact hasKind_of_step hk hs
      · exact ih (hasKind_of_step hk hs) hmem

/-- With a kind, the types without a step are the normal types, and a step keeps the kind. -/
theorem a_step_keeps_the_kind_and_only_normal_types_have_none (hk : t.hasKind D k = true) :
    (t.step = none ↔ t.isNormal = true) ∧ ∀ t', t.step = some t' → t'.hasKind D k = true :=
  ⟨⟨isNormal_of_step_eq_none hk, step_eq_none_of_isNormal⟩, fun _ h => hasKind_of_step hk h⟩

/-- The redex stands under a binder, and its argument lands under another one, beside a
reference to the outer binder. -/
theorem a_step_keeps_the_kind_and_only_normal_types_have_none_under_a_binder :
    let t : PosTy := .lam (.app (.lam (.all .star (.arrow (.var 1) (.var 2)))) (.var 0) .star)
    let t' : PosTy := .lam (.all .star (.arrow (.var 1) (.var 1)))
    t.hasKind [] (.arrow .star .star) = true ∧ t.step = some t' ∧ t.isNormal = false ∧
      t'.hasKind [] (.arrow .star .star) = true ∧ t'.isNormal = true ∧ t'.step = none := by
  intro t t'
  have hk : t.hasKind [] (.arrow .star .star) = true := by decide
  have hstep : t.step = some t' := by decide
  have hk' := (a_step_keeps_the_kind_and_only_normal_types_have_none hk).2 t' hstep
  have hnormal : t'.isNormal = true := by decide
  exact ⟨hk, hstep, by decide, hk', hnormal,
    (a_step_keeps_the_kind_and_only_normal_types_have_none hk').1.mpr hnormal⟩

end PosTy

/-! ## Where stepping ends -/

/-- A type with a kind stops stepping, normalizing it ends too, and both end at the same
type. -/
theorem stepping_ends_where_normalizing_does {D : List Kind} {k : Kind} {t : PosTy}
    (hk : t.hasKind D k = true) :
    ∃ n t', (· >>= PosTy.step)^[n] (some t) = some t' ∧ t'.step = none ∧
      ∃ d, ∀ fuel ≥ d, t.normalize fuel = some t' := by
  obtain ⟨u, hu⟩ := Denotes.exists_of_hasKind hk
  obtain ⟨n, t', u', hn, hlast, hu', hform⟩ := hu.exists_last_step
  obtain ⟨d, t'', u'', hd, hu'', hform'⟩ := hu.exists_normalize
  cases hform.unique hform'
  cases hu'.injective hu''
  exact ⟨n, t', hn, hlast, d, hd⟩

/-- A redex whose argument is a redex as well and is used twice. -/
theorem stepping_ends_where_normalizing_does_on_a_copied_redex :
    let unit : PosTy := .builtin .unit
    let t : PosTy :=
      .app (.lam (.arrow (.var 0) (.var 0))) (.app (.lam (.var 0)) unit .star) .star
    t.hasKind [] .star = true ∧
      ∃ n t', (· >>= PosTy.step)^[n] (some t) = some t' ∧ t'.step = none ∧
        ∃ d, ∀ fuel ≥ d, t.normalize fuel = some t' := by
  intro unit t
  have hk : t.hasKind [] .star = true := by decide
  exact ⟨hk, stepping_ends_where_normalizing_does hk⟩

end FomegaLab
