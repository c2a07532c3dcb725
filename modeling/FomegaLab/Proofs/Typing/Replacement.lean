-- Closed values and closed types in terms. Nothing of them can be captured, so
-- substitution renames no binder and draws no unique, and it keeps what is typed
-- typed: at the same type for a value, at the normal form of the substituted type
-- for a type.
import FomegaLab.Proofs.Typing.Inference

namespace FomegaLab

open NamelessTy (NormalForm)

/-! ## Closed types in types -/

namespace Ty

/-- Puts a closed type for a name. -/
def replace : Ty → TyName → Ty → Ty
  | .var b, a, replacement => if b = a then replacement else .var b
  | .arrow argument result, a, replacement =>
    .arrow (argument.replace a replacement) (result.replace a replacement)
  | .all b k body, a, replacement =>
    if b = a then .all b k body else .all b k (body.replace a replacement)
  | .lam b k body, a, replacement =>
    if b = a then .lam b k body else .lam b k (body.replace a replacement)
  | .app function argument, a, replacement =>
    .app (function.replace a replacement) (argument.replace a replacement)
  | .builtin b, _, _ => .builtin b

theorem substWithin_eq_replace {n : Nat} {a : TyName} {replacement t : Ty} {m : Int}
    (hn : t.size ≤ n) : substWithin n [] a replacement t m = (t.replace a replacement, m) := by
  induction n generalizing t m with
  | zero => cases t <;> simp [size] at hn
  | succ n ih =>
    cases t with
    | var | builtin => rfl
    | arrow s t | app s t =>
      simp only [size] at hn
      simp only [substWithin, replace, Fresh.bind_apply, ih (t := s) (by omega),
        ih (t := t) (by omega), Fresh.pure_apply]
    | all b k body | lam b k body =>
      simp only [size] at hn
      simp only [substWithin, replace, List.not_mem_nil, if_false]
      split_ifs
      · rfl
      · simp only [Fresh.bind_apply, ih (t := body) (by omega), Fresh.pure_apply]

theorem subst_eq_replace {a : TyName} {replacement : Ty} (hr : replacement.free = []) (t : Ty)
    (m : Int) : t.subst a replacement m = (t.replace a replacement, m) := by
  rw [subst, hr]
  exact substWithin_eq_replace (Nat.le_refl _)

theorem nameless_replace {a : TyName} {replacement : Ty} (hr : replacement.free = []) (t : Ty) :
    (t.replace a replacement).nameless =
      t.nameless.subst (.single a replacement.nameless) := by
  have hclosed : ∀ b, ¬ replacement.nameless.Occurs (.free b) := by
    intro b hb
    rw [← mem_free, hr] at hb
    cases hb
  induction t with
  | var b =>
    unfold replace
    split_ifs with hba <;> simp [hba, nameless, NamelessTy.subst, NamelessTy.Subst.single]
  | builtin => rfl
  | arrow s t ihs iht | app s t ihs iht => simp only [replace, nameless, NamelessTy.subst, ihs, iht]
  | all b k body ih | lam b k body ih =>
    unfold replace
    split_ifs with hba
    · rw [hba, nameless, NamelessTy.subst, NamelessTy.abstract_subst_single_self]
    · rw [nameless, nameless, NamelessTy.subst, ih,
        NamelessTy.abstract_subst_single hba (hclosed b)]

theorem Below.replace {n : Int} {t replacement : Ty} (ht : t.Below n) (a : TyName)
    (hr : replacement.Below n) : (t.replace a replacement).Below n := by
  induction t with
  | var b =>
    unfold Ty.replace
    split_ifs
    · exact hr
    · exact ht
  | builtin => trivial
  | arrow s t ihs iht | app s t ihs iht => exact ⟨ihs ht.1, iht ht.2⟩
  | all b k body ih | lam b k body ih =>
    unfold Ty.replace
    split_ifs
    · exact ht
    · exact ⟨ht.1, ih ht.2⟩

end Ty

/-! ## Closed types and closed values in terms -/

namespace Term

/-- Puts a closed type for a type name. -/
def replaceType : Term → TyName → Ty → Term
  | .var x, _, _ => .var x
  | .lam x declared body, a, replacement =>
    .lam x (declared.replace a replacement) (body.replaceType a replacement)
  | .app function argument, a, replacement =>
    .app (function.replaceType a replacement) (argument.replaceType a replacement)
  | .tyLam b k body, a, replacement =>
    if b = a then .tyLam b k body else .tyLam b k (body.replaceType a replacement)
  | .inst term type, a, replacement =>
    .inst (term.replaceType a replacement) (type.replace a replacement)
  | .const l, _, _ => .const l
  | .error declared, a, replacement => .error (declared.replace a replacement)

/-- Puts a closed term for a term name. -/
def replace : Term → Name → Term → Term
  | .var y, x, replacement => if y = x then replacement else .var y
  | .lam y declared body, x, replacement =>
    if y = x then .lam y declared body else .lam y declared (body.replace x replacement)
  | .app function argument, x, replacement =>
    .app (function.replace x replacement) (argument.replace x replacement)
  | .tyLam b k body, x, replacement => .tyLam b k (body.replace x replacement)
  | .inst term type, x, replacement => .inst (term.replace x replacement) type
  | .const l, _, _ => .const l
  | .error declared, _, _ => .error declared

theorem substTypeWithin_eq_replaceType {n : Nat} {a : TyName} {replacement : Ty}
    (hr : replacement.free = []) {t : Term} {m : Int} (hn : t.size ≤ n) :
    substTypeWithin n [] a replacement t m = (t.replaceType a replacement, m) := by
  induction n generalizing t m with
  | zero => cases t <;> simp [size] at hn
  | succ n ih =>
    cases t with
    | var | const => rfl
    | error declared =>
      simp only [substTypeWithin, replaceType, Fresh.bind_apply, Ty.subst_eq_replace hr,
        Fresh.pure_apply]
    | app f t =>
      simp only [size] at hn
      simp only [substTypeWithin, replaceType, Fresh.bind_apply, ih (t := f) (by omega),
        ih (t := t) (by omega), Fresh.pure_apply]
    | lam _ _ t | inst t =>
      simp only [size] at hn
      simp only [substTypeWithin, replaceType, Fresh.bind_apply, ih (t := t) (by omega),
        Ty.subst_eq_replace hr, Fresh.pure_apply]
    | tyLam b k body =>
      simp only [size] at hn
      simp only [substTypeWithin, replaceType, List.not_mem_nil, if_false]
      split_ifs
      · rfl
      · simp only [Fresh.bind_apply, ih (t := body) (by omega), Fresh.pure_apply]

theorem substType_eq_replaceType {a : TyName} {replacement : Ty} (hr : replacement.free = [])
    (t : Term) (m : Int) : t.substType a replacement m = (t.replaceType a replacement, m) := by
  rw [substType, hr]
  exact substTypeWithin_eq_replaceType hr (Nat.le_refl _)

theorem substWithin_eq_replace {n : Nat} {x : Name} {replacement t : Term} {m : Int}
    (hn : t.size ≤ n) :
    substWithin n [] [] x replacement t m = (t.replace x replacement, m) := by
  induction n generalizing t m with
  | zero => cases t <;> simp [size] at hn
  | succ n ih =>
    cases t with
    | var | const | error => rfl
    | app f t =>
      simp only [size] at hn
      simp only [substWithin, replace, Fresh.bind_apply, ih (t := f) (by omega),
        ih (t := t) (by omega), Fresh.pure_apply]
    | lam y declared body =>
      simp only [size] at hn
      simp only [substWithin, replace, List.not_mem_nil, if_false]
      split_ifs
      · rfl
      · simp only [Fresh.bind_apply, ih (t := body) (by omega), Fresh.pure_apply]
    | tyLam _ _ t | inst t =>
      simp only [size] at hn
      simp only [substWithin, replace, List.not_mem_nil, if_false, Fresh.bind_apply,
        ih (t := t) (by omega), Fresh.pure_apply]

theorem subst_eq_replace {x : Name} {replacement : Term} (hfree : replacement.free = [])
    (htypes : replacement.freeTypes = []) (t : Term) (m : Int) :
    t.subst x replacement m = (t.replace x replacement, m) := by
  rw [subst, hfree, htypes]
  exact substWithin_eq_replace (Nat.le_refl _)

theorem Below.replaceType {n : Int} {t : Term} {replacement : Ty} (ht : t.Below n) (a : TyName)
    (hr : replacement.Below n) : (t.replaceType a replacement).Below n := by
  induction t with
  | var => exact ht
  | const => trivial
  | error declared => exact Ty.Below.replace ht a hr
  | app f t ihf iht => exact ⟨ihf ht.1, iht ht.2⟩
  | lam x declared body ih => exact ⟨ht.1, ht.2.1.replace a hr, ih ht.2.2⟩
  | inst t type ih => exact ⟨ih ht.1, ht.2.replace a hr⟩
  | tyLam b k body ih =>
    unfold Term.replaceType
    split_ifs
    · exact ht
    · exact ⟨ht.1, ih ht.2⟩

theorem Below.replace {n : Int} {t replacement : Term} (ht : t.Below n) (x : Name)
    (hr : replacement.Below n) : (t.replace x replacement).Below n := by
  induction t with
  | var y =>
    unfold Term.replace
    split_ifs
    · exact hr
    · exact ht
  | const => trivial
  | error declared => exact ht
  | app f t ihf iht => exact ⟨ihf ht.1, iht ht.2⟩
  | inst t type ih => exact ⟨ih ht.1, ht.2⟩
  | tyLam b k body ih => exact ⟨ht.1, ih ht.2⟩
  | lam y declared body ih =>
    unfold Term.replace
    split_ifs
    · exact ht
    · exact ⟨ht.1, ht.2.1, ih ht.2.2⟩

theorem free_replaceType (a : TyName) (replacement : Ty) (t : Term) :
    (t.replaceType a replacement).free = t.free := by
  induction t with
  | var | const | error => rfl
  | app f t ihf iht => simp only [replaceType, free, ihf, iht]
  | lam _ _ _ ih | inst _ _ ih => simp only [replaceType, free, ih]
  | tyLam b k body ih =>
    unfold replaceType
    split_ifs
    · rfl
    · exact ih

theorem mem_free_replace {x y : Name} {replacement t : Term} (hr : replacement.free = [])
    (h : y ∈ (t.replace x replacement).free) : y ∈ t.free ∧ y ≠ x := by
  induction t with
  | var z =>
    unfold replace at h
    split_ifs at h with hzx
    · rw [hr] at h
      cases h
    · cases List.mem_singleton.mp h
      exact ⟨h, hzx⟩
  | const | error => cases h
  | app f t ihf iht =>
    exact (List.mem_append.mp h).elim
      (fun h => ⟨List.mem_append_left _ (ihf h).1, (ihf h).2⟩)
      (fun h => ⟨List.mem_append_right _ (iht h).1, (iht h).2⟩)
  | tyLam _ _ _ ih | inst _ _ ih => exact ih h
  | lam z declared body ih =>
    unfold replace at h
    split_ifs at h with hzx
    · exact ⟨h, fun hyx => by simp [free, hyx, hzx] at h⟩
    · obtain ⟨h, hne⟩ := List.mem_filter.mp h
      exact ⟨List.mem_filter.mpr ⟨(ih h).1, hne⟩, (ih h).2⟩

end Term

end FomegaLab
