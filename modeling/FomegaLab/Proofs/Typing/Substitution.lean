-- Typing survives substitution. A closed value of the right type may stand for a
-- term name, and a closed type of the right kind for a type name.
import FomegaLab.Proofs.Typing.Replacement

namespace FomegaLab

open NamelessTy (NormalForm)

/-- The typing of closed terms: no name is in scope. -/
abbrev HasClosedType (t : Term) (T : NamelessTy) : Prop :=
  HasType (fun _ => none) (fun _ => none) t T

namespace HasClosedType

variable {t : Term} {T : NamelessTy}

theorem free_eq_nil (h : HasClosedType t T) : t.free = [] := by
  apply List.eq_nil_iff_forall_not_mem.mpr
  intro x hx
  obtain ⟨S, hS⟩ := h.exists_of_free hx
  cases hS

theorem freeTypes_eq_nil (h : HasClosedType t T) : t.freeTypes = [] := by
  apply List.eq_nil_iff_forall_not_mem.mpr
  intro a ha
  obtain ⟨k, hk⟩ := h.exists_of_freeTypes ha
  cases hk

/-- A closed term has its type in every scope. -/
theorem weaken (h : HasClosedType t T) (K : NameKinds) (Γ : NameTypes) : HasType K Γ t T := by
  refine h.congr (fun a ha => ?_) fun x hx => ?_
  · rw [h.freeTypes_eq_nil] at ha
    cases ha
  · rw [h.free_eq_nil] at hx
    cases hx

end HasClosedType

/-! ## Values for term names -/

theorem HasType.replace {K : NameKinds} {Γ Δ : NameTypes} {x : Name} {v t : Term}
    {S T : NamelessTy} (ht : HasType K Δ t T) (hΔ : Δ = Function.update Γ x (some S))
    (hv : HasClosedType v S) : HasType K Γ (t.replace x v) T := by
  induction ht generalizing Γ with
  | @var K Δ y T h =>
    unfold Term.replace
    split_ifs with hyx
    · rw [hΔ, hyx, Function.update_self] at h
      cases h
      exact hv.weaken K Γ
    · rw [hΔ, Function.update_of_ne hyx] at h
      exact .var h
  | @lam K Δ y declared body S' T hk hS hbody ih =>
    unfold Term.replace
    split_ifs with hyx
    · rw [hΔ, hyx, Function.update_idem] at hbody
      exact .lam hk hS (hyx ▸ hbody)
    · refine .lam hk hS (ih ?_)
      rw [hΔ, Function.update_comm hyx]
  | app _ _ ihf iha => exact .app (ihf hΔ) (iha hΔ)
  | tyLam _ ha ih =>
    refine .tyLam (ih hΔ) ?_
    intro y hy U hU
    obtain ⟨hy, hyx⟩ := Term.mem_free_replace hv.free_eq_nil hy
    exact ha y hy U (by rw [hΔ, Function.update_of_ne hyx, hU])
  | inst _ hk hT ih => exact .inst (ih hΔ) hk hT
  | const l => exact .const l
  | error hk hS => exact .error hk hS

/-! ## Types for type names -/

/-- A closed type, and what it may stand for: the name `a` with the kind `K a`. The
scope `L` needs no kind for `a` any more. -/
structure Replaces (replacement : Ty) (a : TyName) (K L : NameKinds) : Prop where
  closed : replacement.free = []
  kind : ∀ k, K a = some k → replacement.nameless.kind? (.ofNames fun _ => none) = some k
  agree : ∀ b, b ≠ a → L b = K b

namespace Replaces

variable {A : Ty} {a : TyName} {K L : NameKinds}

theorem not_occurs (h : Replaces A a K L) (r : Ref TyName) : ¬ A.nameless.Occurs r := by
  intro hr
  obtain ⟨b, rfl⟩ := Ty.exists_free_of_occurs hr
  rw [← Ty.mem_free, h.closed] at hr
  cases hr

/-- A binder of another name changes nothing. -/
theorem push (h : Replaces A a K L) {b : TyName} (hb : b ≠ a) (k : Kind) :
    Replaces A a (Function.update K b (some k)) (Function.update L b (some k)) := by
  refine ⟨h.closed, fun j hj => h.kind j ?_, fun c hc => ?_⟩
  · rwa [Function.update_of_ne (Ne.symm hb)] at hj
  · by_cases hcb : c = b
    · simp [hcb]
    · rw [Function.update_of_ne hcb, Function.update_of_ne hcb, h.agree c hc]

theorem fits (h : Replaces A a K L) :
    NamelessTy.Subst.Fits (.single a A.nameless) (.ofNames K) (.ofNames L) := by
  intro r k hr
  cases r with
  | bound i => cases hr
  | free b =>
    by_cases hb : b = a
    · rw [NamelessTy.Subst.single, if_pos (by rw [hb]), ← h.kind k (hb ▸ hr)]
      exact NamelessTy.kind?_ofNames_congr fun c hc => absurd hc (h.not_occurs _)
    · rw [NamelessTy.Subst.single, if_neg (by simp [hb]), NamelessTy.kind?, KindScope.ofNames,
        h.agree b hb]
      exact hr

/-- The kind of a type outlives the replacement. -/
theorem kind?_replace (h : Replaces A a K L) {t : Ty} {k : Kind}
    (hk : t.nameless.kind? (.ofNames K) = some k) :
    (t.replace a A).nameless.kind? (.ofNames L) = some k := by
  rw [Ty.nameless_replace h.closed]
  exact NamelessTy.kind?_subst h.fits hk

/-- A type with a normal form has one after the replacement, and so has its normal form. -/
theorem exists_normalForm (h : Replaces A a K L) {t : Ty} {k : Kind} {S : NamelessTy}
    (hk : t.nameless.kind? (.ofNames K) = some k) (hS : NormalForm t.nameless S) :
    ∃ S', NormalForm (t.replace a A).nameless S' ∧
      NormalForm (S.subst (.single a A.nameless)) S' := by
  obtain ⟨S', hS'⟩ := NamelessTy.exists_normalForm (h.kind?_replace hk)
  have hsteps := hS'
  rw [Ty.nameless_replace h.closed] at hsteps
  exact ⟨S', hS', hsteps.after_steps (hS.steps.subst _)⟩

end Replaces

/-- `Δ` has, for the names in a term, the normal forms of what becomes of their types
in `Γ`. -/
def NameTypes.Replaced (Γ Δ : NameTypes) (a : TyName) (A : Ty) (t : Term) : Prop :=
  ∀ x ∈ t.free, ∀ S, Γ x = some S →
    ∃ S', Δ x = some S' ∧ NormalForm (S.subst (.single a A.nameless)) S'

namespace NameTypes.Replaced

variable {Γ Δ : NameTypes} {A : Ty} {a b : TyName} {K L : NameKinds} {T : NamelessTy}

theorem left {f t : Term} (h : Γ.Replaced Δ a A (.app f t)) : Γ.Replaced Δ a A f :=
  fun x hx => h x (List.mem_append_left _ hx)

theorem right {f t : Term} (h : Γ.Replaced Δ a A (.app f t)) : Γ.Replaced Δ a A t :=
  fun x hx => h x (List.mem_append_right _ hx)

theorem lam {x : Name} {declared : Ty} {body : Term} {S S' : NamelessTy}
    (h : Γ.Replaced Δ a A (.lam x declared body))
    (hS : NormalForm (S.subst (.single a A.nameless)) S') :
    NameTypes.Replaced (Function.update Γ x (some S)) (Function.update Δ x (some S')) a A
      body := by
  intro y hy U hU
  by_cases hyx : y = x
  · rw [hyx, Function.update_self] at hU ⊢
    cases hU
    exact ⟨S', rfl, hS⟩
  · rw [Function.update_of_ne hyx] at hU ⊢
    exact h y (Term.mem_free_lam hy hyx) U hU

theorem tyLam {k : Kind} {body : Term} (h : Γ.Replaced Δ a A (.tyLam b k body)) :
    Γ.Replaced Δ a A body := h

/-- What the types in scope do not mention, they do not mention after the replacement. -/
theorem not_occurs {t : Term} (h : Γ.Replaced Δ a A t) (hA : Replaces A a K L)
    (ht : HasType K Γ t T) (hb : ∀ x ∈ t.free, ∀ S, Γ x = some S → ¬ S.Occurs (.free b))
    {x : Name} (hx : x ∈ t.free) {S' : NamelessTy} (hS' : Δ x = some S') :
    ¬ S'.Occurs (.free b) := by
  intro hoccurs
  obtain ⟨S, hS⟩ := ht.exists_of_free hx
  obtain ⟨S'', hS'', hn⟩ := h x hx S hS
  cases hS'.symm.trans hS''
  obtain ⟨r, hr, hrb⟩ := NamelessTy.occurs_subst.mp (hn.steps.occurs hoccurs)
  unfold NamelessTy.Subst.single at hrb
  split_ifs at hrb
  · exact hA.not_occurs _ hrb
  · cases hrb
    exact hb x hx S hS hr

/-- A binder of the name stops the replacement, and the types in scope do not mention it. -/
theorem hasType_tyLam {k : Kind} {body : Term} (h : Γ.Replaced Δ a A (.tyLam a k body))
    (hA : Replaces A a K L) (ht : HasType K Γ (.tyLam a k body) T)
    (hΓ : Γ.WellKinded K (.tyLam a k body))
    (ha : ∀ x ∈ body.free, ∀ S, Γ x = some S → ¬ S.Occurs (.free a)) :
    HasType L Δ (.tyLam a k body) T := by
  refine ht.congr (fun c hc => ?_) fun x hx => ?_
  · have hca := (List.mem_filter.mp hc).2
    exact (hA.agree c (by simpa using hca)).symm
  · obtain ⟨S, hS⟩ := ht.exists_of_free hx
    obtain ⟨S', hS', hn⟩ := h x hx S hS
    rw [NamelessTy.subst_single_of_not_occurs (ha x hx S hS)] at hn
    rw [hS, hS', hn.unique (hΓ x hx S hS).1.normalForm]

end NameTypes.Replaced

/-- Replacing a type name in a term leaves it a type: the normal form of what becomes
of the old one. -/
theorem HasType.replaceType {K L : NameKinds} {Γ Δ : NameTypes} {a : TyName} {A : Ty} {t : Term}
    {T : NamelessTy} (ht : HasType K Γ t T) (hA : Replaces A a K L) (hΓ : Γ.WellKinded K t)
    (hΔ : Γ.Replaced Δ a A t) :
    ∃ T', HasType L Δ (t.replaceType a A) T' ∧
      NormalForm (T.subst (.single a A.nameless)) T' := by
  induction ht generalizing L Δ with
  | var h =>
    obtain ⟨S', hS', hn⟩ := hΔ _ (List.mem_singleton_self _) _ h
    exact ⟨S', .var hS', hn⟩
  | lam hk hS _ ih =>
    obtain ⟨S', hS', hnS⟩ := hA.exists_normalForm hk hS
    obtain ⟨T', hT', hnT⟩ := ih hA (hΓ.lam hk hS) (hΔ.lam hnS)
    exact ⟨.arrow S' T', .lam (hA.kind?_replace hk) hS' hT', hnS.arrow hnT⟩
  | app _ _ ihf iha =>
    obtain ⟨F, hF, hnF⟩ := ihf hA hΓ.left hΔ.left
    obtain ⟨S', hS', hnS⟩ := iha hA hΓ.right hΔ.right
    obtain ⟨S'', T', rfl, hnS', hnT⟩ := hnF.of_arrow
    cases hnS.unique hnS'
    exact ⟨T', .app hF hS', hnT⟩
  | @tyLam K Γ b k body T hbody hb ih =>
    have ht : HasType K Γ (.tyLam b k body) (.all k (T.abstract b)) := .tyLam hbody hb
    unfold Term.replaceType
    split_ifs with hba
    · subst hba
      refine ⟨_, hΔ.hasType_tyLam hA ht hΓ hb, ?_⟩
      rw [NamelessTy.subst, NamelessTy.abstract_subst_single_self]
      exact (ht.regular hΓ).1.normalForm
    · have hpush := hA.push hba k
      obtain ⟨T', hT', hnT⟩ := ih hpush (hΓ.tyLam hb) hΔ.tyLam
      refine ⟨.all k (T'.abstract b), .tyLam hT' ?_, ?_⟩
      · intro x hx S' hS'
        rw [Term.free_replaceType] at hx
        exact hΔ.tyLam.not_occurs hpush hbody hb hx hS'
      · rw [NamelessTy.subst, NamelessTy.abstract_subst_single hba (hA.not_occurs _)]
        exact (hnT.rename _).all k
  | inst ht hk hT ih =>
    obtain ⟨F, hF, hnF⟩ := ih hA hΓ hΔ
    obtain ⟨B', rfl, hnB⟩ := hnF.of_all
    have hreg := HasType.regular (.inst ht hk hT) hΓ
    obtain ⟨T', hnT⟩ := NamelessTy.exists_normalForm (NamelessTy.kind?_subst hA.fits hreg.2)
    refine ⟨T', .inst hF (hA.kind?_replace hk) ?_, hnT⟩
    have hn := NormalForm.of_steps (hT.steps.subst _) hnT
    rw [NamelessTy.inst_subst] at hn
    rw [Ty.nameless_replace hA.closed]
    exact hn.after_steps (.inst hnB.steps .refl)
  | const l => exact ⟨.builtin l.builtin, .const l, .refl, trivial⟩
  | error hk hS =>
    obtain ⟨S', hS', hnS⟩ := hA.exists_normalForm hk hS
    exact ⟨S', .error (hA.kind?_replace hk) hS', hnS⟩

end FomegaLab
