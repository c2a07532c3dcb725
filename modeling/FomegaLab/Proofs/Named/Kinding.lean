-- Kinds of named types. The kind that is inferred for a type is the kind of its
-- nameless form, so a kind outlives every change of bound names, every reduction
-- and every substitution that fits.
import FomegaLab.Named.Kinding
import FomegaLab.Proofs.Named.Nameless
import FomegaLab.Proofs.Nameless.Kinding
import FomegaLab.Proofs.Runs
import Mathlib.Logic.Function.Basic

namespace FomegaLab

/-! ## Scopes of names -/

/-- A new binding hides the older ones of its name. -/
theorem lookup_cons_eq_update {ν α : Type} [DecidableEq ν] (a : ν) (v : α)
    (scope : Bindings ν α) :
    (fun b => List.lookup b ((a, v) :: scope)) =
      Function.update (fun b => scope.lookup b) a (some v) := by
  funext b
  by_cases h : b = a
  · simp [h]
  · have hba : (b == a) = false := by simp [h]
    simp only [List.lookup_cons, hba, Function.update_of_ne h]

namespace KindScope

/-- The scope outside of all binders, where only names have kinds. -/
def ofNames (K : TyName → Option Kind) : KindScope
  | .free a => K a
  | .bound _ => none

/-- Binding a name moves its kind to the innermost binder. -/
theorem push_comp_bind (K : TyName → Option Kind) (a : TyName) (k : Kind) :
    push k (ofNames K) ∘ Ref.bind a = ofNames (Function.update K a (some k)) := by
  funext r
  by_cases hr : r = .free a
  · simp [hr, ofNames]
  · rw [Function.comp_apply, Ref.bind_of_ne hr, push_succ]
    cases r with
    | free b =>
      have hb : b ≠ a := fun hb => hr (by rw [hb])
      rw [ofNames, ofNames, Function.update_of_ne hb]
    | bound i => rfl

end KindScope

/-- Outside of all binders, the scope matters only at the free names. -/
theorem NamelessTy.kind?_ofNames_congr {t : NamelessTy} {K L : TyName → Option Kind}
    (h : ∀ a, t.Occurs (.free a) → K a = L a) : t.kind? (.ofNames K) = t.kind? (.ofNames L) := by
  refine kind?_congr fun r hr => ?_
  cases r with
  | free a => exact h a hr
  | bound i => rfl

/-- The body of a binder has its kind where the name of the binder has its own. -/
theorem NamelessTy.kind?_abstract (t : NamelessTy) (a : TyName) (K : TyName → Option Kind)
    (k : Kind) : (t.abstract a).kind? (.push k (.ofNames K)) =
      t.kind? (.ofNames (Function.update K a (some k))) := by
  rw [abstract, kind?_rename, KindScope.push_comp_bind]

/-! ## Inference -/

namespace Ty

theorem expectKind_eq_ok {t : Ty} {expected actual : Kind} {u : Unit} :
    t.expectKind expected actual = .ok u ↔ actual = expected := by
  unfold expectKind
  split <;> simp_all

/-- Every free name of a type with a kind has a kind. -/
theorem exists_of_mem_free {t : Ty} {K : TyName → Option Kind} {k : Kind} {a : TyName}
    (h : t.nameless.kind? (.ofNames K) = some k) (ha : a ∈ t.free) : ∃ j, K a = some j :=
  NamelessTy.kind?_of_occurs h (mem_free.mp ha)

theorem free_eq_nil_of_kind? {t : Ty} {k : Kind}
    (h : t.nameless.kind? (.ofNames fun _ => none) = some k) : t.free = [] := by
  apply List.eq_nil_iff_forall_not_mem.mpr
  intro a ha
  obtain ⟨j, hj⟩ := exists_of_mem_free h ha
  cases hj

theorem inferKind_eq_ok {t : Ty} {scope : Bindings TyName Kind} {k : Kind} :
    t.inferKind scope = .ok k ↔
      t.nameless.kind? (.ofNames fun a => scope.lookup a) = some k := by
  induction t generalizing scope k with
  | var a =>
    rw [inferKind, nameless, NamelessTy.kind?, KindScope.ofNames]
    cases scope.lookup a <;> simp
  | builtin b => simp [inferKind, nameless, NamelessTy.kind?]
  | arrow s t ihs iht =>
    rw [nameless, NamelessTy.kind?_arrow, ← ihs, ← iht]
    simp only [inferKind, bind_eq_ok, expectKind_eq_ok]
    constructor
    · rintro ⟨_, hs, _, rfl, _, ht, _, rfl, hk⟩
      cases hk
      exact ⟨hs, ht, rfl⟩
    · rintro ⟨hs, ht, rfl⟩
      exact ⟨_, hs, (), rfl, _, ht, (), rfl, rfl⟩
  | all a j t ih =>
    rw [nameless, NamelessTy.kind?_all, NamelessTy.kind?_abstract, ← lookup_cons_eq_update, ← ih]
    simp only [inferKind, bind_eq_ok, expectKind_eq_ok]
    constructor
    · rintro ⟨_, ht, _, rfl, hk⟩
      cases hk
      exact ⟨ht, rfl⟩
    · rintro ⟨ht, rfl⟩
      exact ⟨_, ht, (), rfl, rfl⟩
  | lam a j t ih =>
    rw [nameless, NamelessTy.kind?_lam]
    simp only [NamelessTy.kind?_abstract, ← lookup_cons_eq_update, ← ih, inferKind, bind_eq_ok]
    constructor
    · rintro ⟨result, ht, hk⟩
      cases hk
      exact ⟨result, ht, rfl⟩
    · rintro ⟨result, ht, rfl⟩
      exact ⟨result, ht, rfl⟩
  | app f t ihf iht =>
    rw [nameless, NamelessTy.kind?_app]
    simp only [← ihf, ← iht, inferKind, bind_eq_ok]
    constructor
    · rintro ⟨fk, hf, h⟩
      cases fk with
      | star => cases h
      | arrow j result =>
        simp only [bind_eq_ok, expectKind_eq_ok] at h
        obtain ⟨_, ht, _, rfl, hk⟩ := h
        cases hk
        exact ⟨_, hf, ht⟩
    · rintro ⟨j, hf, ht⟩
      refine ⟨_, hf, ?_⟩
      simp only [bind_eq_ok, expectKind_eq_ok]
      exact ⟨j, ht, (), rfl, rfl⟩

theorem checkKind_eq_ok {t : Ty} {scope : Bindings TyName Kind} {k : Kind} {u : Unit} :
    t.checkKind scope k = .ok u ↔
      t.nameless.kind? (.ofNames fun a => scope.lookup a) = some k := by
  rw [← inferKind_eq_ok]
  simp only [checkKind, bind_eq_ok, expectKind_eq_ok]
  constructor
  · rintro ⟨_, h, rfl⟩
    exact h
  · intro h
    exact ⟨k, h, rfl⟩

end Ty

end FomegaLab
