-- What normalization makes of a named type with a kind: a normal type of the same kind,
-- with no new free names, that normalizing again leaves as it is. Types that are equal
-- up to bound names come to one normal form, up to bound names.
import FomegaLab.Proofs.Named.Kinding
import FomegaLab.Proofs.Named.Normal

namespace FomegaLab.Ty

open NamelessTy (NormalForm)

/-! ## Normal types -/

/-- A type is normal exactly if its nameless form is. -/
theorem isNormal_iff {t : Ty} : t.isNormal = true ↔ t.nameless.Normal := by
  induction t with
  | var | builtin => simp [isNormal, nameless, NamelessTy.Normal]
  | arrow s t ihs iht => rw [isNormal, Bool.and_eq_true, ihs, iht, nameless, NamelessTy.Normal]
  | all a k t ih | lam a k t ih =>
    rw [isNormal, ih, nameless, NamelessTy.Normal, NamelessTy.abstract, NamelessTy.normal_rename]
  | app f t ihf iht =>
    rw [nameless, NamelessTy.Normal, ← ihf, ← iht]
    cases f <;> simp [isNormal, nameless, NamelessTy.isLam]

/-- Normalization leaves a normal type as it is, and draws no unique. -/
theorem run_normalizeWith_of_isNormal (contracted : Ty → OptionT Fresh Ty) {t : Ty}
    (h : t.isNormal = true) (n : Int) : (t.normalizeWith contracted).run n = (some t, n) := by
  induction t with
  | var | builtin => rfl
  | arrow s t ihs iht =>
    rw [isNormal, Bool.and_eq_true] at h
    exact run_normalizeWith_arrow.mpr ⟨s, n, t, ihs h.1, iht h.2, rfl⟩
  | all a k t ih => exact run_normalizeWith_all.mpr ⟨t, ih h, rfl⟩
  | lam a k t ih => exact run_normalizeWith_lam.mpr ⟨t, ih h, rfl⟩
  | app f t ihf iht =>
    obtain ⟨hl, hf, ht⟩ := isNormal_iff.mp h
    exact run_normalizeWith_app.mpr ⟨f, n, t, n, ihf (isNormal_iff.mpr hf),
      iht (isNormal_iff.mpr ht), (run_applyNormal hl).mpr ⟨rfl, rfl⟩⟩

theorem run_normalize_of_isNormal (fuel : Nat) {t : Ty} (h : t.isNormal = true) (n : Int) :
    (t.normalize fuel).run n = (some t, n) := by
  rw [normalize_eq]
  exact run_normalizeWith_of_isNormal _ h n

/-! ## What a normalization keeps -/

namespace NormalizeSpec

variable {n m : Int} {t t' : Ty}

theorem isNormal (h : NormalizeSpec n t t' m) : t'.isNormal = true :=
  isNormal_iff.mpr h.normalForm.normal

theorem inferKind (h : NormalizeSpec n t t' m) {scope : Bindings TyName Kind} {k : Kind}
    (hk : t.inferKind scope = .ok k) : t'.inferKind scope = .ok k := by
  rw [inferKind_eq_ok] at hk ⊢
  exact h.normalForm.steps.kind? hk

theorem free_subset (h : NormalizeSpec n t t' m) : t'.free ⊆ t.free := by
  intro a ha
  rw [mem_free] at ha ⊢
  exact h.normalForm.steps.occurs ha

/-- The types that two normalizations return are equal up to bound names if the types that
they started from are. -/
theorem alphaEq {p q : Int} {u u' : Ty} (ht : NormalizeSpec n t t' m)
    (hu : NormalizeSpec p u u' q) (h : t.alphaEq u) : t'.alphaEq u' := by
  rw [alphaEq_iff] at h ⊢
  exact ht.normalForm.unique (h ▸ hu.normalForm)

end NormalizeSpec

/-- Normalizing a type with a kind ends, whatever the supply, in a normal type that has the
kind in the same scope and no other free names. Normalizing this type changes nothing, and
every type that is equal to the first one up to bound names comes to it up to bound names,
from every supply that is new to it. -/
theorem a_type_with_a_kind_has_one_normal_form {t : Ty} {scope : Bindings TyName Kind} {k : Kind}
    {n : Int} (hb : t.Below n) (hk : t.inferKind scope = .ok k) :
    ∃ d, ∀ fuel ≥ d, ∀ p ≥ n, ∃ t' m, (t.normalize fuel).run p = (some t', m) ∧
      t'.isNormal = true ∧ t'.inferKind scope = .ok k ∧ t'.free ⊆ t.free ∧
      (∀ fuel' q, (t'.normalize fuel').run q = (some t', q)) ∧
      ∀ fuel' ≥ d, ∀ (u : Ty) (q : Int), u.alphaEq t → u.Below q →
        ∃ u' l, (u.normalize fuel').run q = (some u', l) ∧ u'.alphaEq t' := by
  obtain ⟨d, hd⟩ := exists_normalize (inferKind_eq_ok.mp hk)
  refine ⟨d, fun fuel hfuel p hp => ?_⟩
  obtain ⟨t', m, hrun, ht⟩ := hd fuel hfuel t p rfl (hb.mono hp)
  refine ⟨t', m, hrun, ht.isNormal, ht.inferKind hk, ht.free_subset,
    fun fuel' q => run_normalize_of_isNormal fuel' ht.isNormal q, ?_⟩
  intro fuel' hfuel' u q hut hu
  obtain ⟨u', l, hrun', hu'⟩ := hd fuel' hfuel' u q (alphaEq_iff.mp hut) hu
  exact ⟨u', l, hrun', hu'.alphaEq ht hut⟩

/-- The argument has the name that the inner binder of the function takes, and that name has
a kind in the scope. -/
theorem a_type_with_a_kind_has_one_normal_form_where_a_binder_is_renamed :
    let a : TyName := ⟨"a", 0⟩
    let b : TyName := ⟨"b", 1⟩
    let c : TyName := ⟨"b", 2⟩
    let scope : Bindings TyName Kind := [(b, .star)]
    let t : Ty := .app (.lam a .star (.lam b .star (.arrow (.var a) (.var b)))) (.var b)
    t.Below 2 ∧ t.inferKind scope = .ok (.arrow .star .star) ∧
      (t.normalize 1).run 2 = (some (.lam c .star (.arrow (.var b) (.var c))), 3) ∧
      ∃ d, ∀ fuel ≥ d, ∀ p ≥ 2, ∃ t' m, (t.normalize fuel).run p = (some t', m) ∧
        t'.isNormal = true ∧ t'.inferKind scope = .ok (.arrow .star .star) ∧ t'.free ⊆ t.free ∧
        (∀ fuel' q, (t'.normalize fuel').run q = (some t', q)) ∧
        ∀ fuel' ≥ d, ∀ (u : Ty) (q : Int), u.alphaEq t → u.Below q →
          ∃ u' l, (u.normalize fuel').run q = (some u', l) ∧ u'.alphaEq t' := by
  intro a b c scope t
  have hb : t.Below 2 := by simp [t, a, b, Below]
  have hk : t.inferKind scope = .ok (.arrow .star .star) := by rfl
  exact ⟨hb, hk, by rfl, a_type_with_a_kind_has_one_normal_form hb hk⟩

/-- A type may have the unique that the supply gives out next. Then the binder that is
renamed takes a name that another binder has, and an equal type with other names comes to
another normal form. -/
theorem a_type_with_the_next_unique_has_another_normal_form :
    let a : TyName := ⟨"a", 0⟩
    let b : TyName := ⟨"b", 1⟩
    let c : TyName := ⟨"c", 2⟩
    let next : TyName := ⟨"b", 3⟩
    let type (c : TyName) : Ty :=
      .lam b .star (.lam c .star (.app (.lam a .star (.lam b .star (.var c))) (.var b)))
    let t' : Ty := .lam b .star (.lam c .star (.lam next .star (.var c)))
    let u' : Ty := .lam b .star (.lam next .star (.lam next .star (.var next)))
    (type c).Below 3 ∧
      (type c).inferKind [] = .ok (.arrow .star (.arrow .star (.arrow .star .star))) ∧
      (type next).alphaEq (type c) = true ∧ ((type c).normalize 1).run 3 = (some t', 4) ∧
      ((type next).normalize 1).run 3 = (some u', 4) ∧ u'.alphaEq t' = false := by
  intro a b c next type t' u'
  have hb : (type c).Below 3 := by simp [type, a, b, c, Below]
  exact ⟨hb, by rfl, by rfl, by rfl, by rfl, by rfl⟩

end FomegaLab.Ty
