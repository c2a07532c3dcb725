-- The typing judgement that inference decides, with nameless types. A term has at
-- most one type, the type is normal, and the scopes matter only where the term
-- refers to them.
import FomegaLab.Named.Free
import FomegaLab.Proofs.Named.Kinding
import FomegaLab.Proofs.Nameless.Termination

namespace FomegaLab

open NamelessTy (NormalForm)

/-- The kinds of the type names in scope. -/
abbrev NameKinds := TyName → Option Kind

/-- The types of the term names in scope. -/
abbrev NameTypes := Name → Option NamelessTy

/-- `HasType K Γ t T`: in the scopes `K` and `Γ`, the term `t` has the normal type `T`.

A type abstraction whose name is already in the type of a variable would take that
occurrence for its own. Inference does not look for this, and the judgement rules it
out: nobody can then put a value for the variable that means the outer name. -/
inductive HasType : NameKinds → NameTypes → Term → NamelessTy → Prop
  | var {K : NameKinds} {Γ : NameTypes} {x : Name} {T : NamelessTy} (h : Γ x = some T) :
      HasType K Γ (.var x) T
  | lam {K : NameKinds} {Γ : NameTypes} {x : Name} {declared : Ty} {body : Term}
      {S T : NamelessTy} (hk : declared.nameless.kind? (.ofNames K) = some .star)
      (hS : NormalForm declared.nameless S)
      (h : HasType K (Function.update Γ x (some S)) body T) :
      HasType K Γ (.lam x declared body) (.arrow S T)
  | app {K : NameKinds} {Γ : NameTypes} {function argument : Term} {S T : NamelessTy}
      (hf : HasType K Γ function (.arrow S T)) (ha : HasType K Γ argument S) :
      HasType K Γ (.app function argument) T
  | tyLam {K : NameKinds} {Γ : NameTypes} {a : TyName} {k : Kind} {body : Term} {T : NamelessTy}
      (h : HasType (Function.update K a (some k)) Γ body T)
      (ha : ∀ x ∈ body.free, ∀ S, Γ x = some S → ¬ S.Occurs (.free a)) :
      HasType K Γ (.tyLam a k body) (.all k (T.abstract a))
  | inst {K : NameKinds} {Γ : NameTypes} {term : Term} {type : Ty} {k : Kind}
      {B T : NamelessTy} (ht : HasType K Γ term (.all k B))
      (hk : type.nameless.kind? (.ofNames K) = some k)
      (hT : NormalForm (B.inst type.nameless) T) : HasType K Γ (.inst term type) T
  | const {K : NameKinds} {Γ : NameTypes} (l : Literal) :
      HasType K Γ (.const l) (.builtin l.builtin)
  | error {K : NameKinds} {Γ : NameTypes} {declared : Ty} {S : NamelessTy}
      (hk : declared.nameless.kind? (.ofNames K) = some .star)
      (hS : NormalForm declared.nameless S) : HasType K Γ (.error declared) S

namespace HasType

/-- A term has at most one type. -/
theorem unique {K : NameKinds} {Γ : NameTypes} {t : Term} {S T : NamelessTy}
    (hS : HasType K Γ t S) (hT : HasType K Γ t T) : S = T := by
  induction hS generalizing T with
  | var h =>
    cases hT with
    | var h' => exact Option.some.inj (h.symm.trans h')
  | lam _ hS _ ih =>
    cases hT with
    | lam _ hS' h' =>
      cases hS.unique hS'
      rw [ih h']
  | app _ _ ihf _ =>
    cases hT with
    | app hf' _ =>
      cases ihf hf'
      rfl
  | tyLam _ _ ih =>
    cases hT with
    | tyLam h' _ => rw [ih h']
  | inst _ _ hU ih =>
    cases hT with
    | inst ht' _ hU' =>
      cases ih ht'
      exact hU.unique hU'
  | const l =>
    cases hT
    rfl
  | error _ hS =>
    cases hT with
    | error _ hS' => exact hS.unique hS'

/-! ## What a term refers to -/

/-- Every free term name has a type. -/
theorem exists_of_free {K : NameKinds} {Γ : NameTypes} {t : Term} {T : NamelessTy}
    (h : HasType K Γ t T) {x : Name} (hx : x ∈ t.free) : ∃ S, Γ x = some S := by
  induction h with
  | var h =>
    cases List.mem_singleton.mp hx
    exact ⟨_, h⟩
  | lam _ _ _ ih =>
    obtain ⟨hx, hne⟩ := List.mem_filter.mp hx
    obtain ⟨S, hS⟩ := ih hx
    rw [Function.update_of_ne (by simpa using hne)] at hS
    exact ⟨S, hS⟩
  | app _ _ ihf iha => exact (List.mem_append.mp hx).elim ihf iha
  | tyLam _ _ ih | inst _ _ _ ih => exact ih hx
  | const | error => cases hx

/-- Every free type name has a kind. -/
theorem exists_of_freeTypes {K : NameKinds} {Γ : NameTypes} {t : Term} {T : NamelessTy}
    (h : HasType K Γ t T) {a : TyName} (ha : a ∈ t.freeTypes) : ∃ k, K a = some k := by
  induction h with
  | var => cases ha
  | const => cases ha
  | lam hk _ _ ih => exact (List.mem_append.mp ha).elim (Ty.exists_of_mem_free hk) ih
  | app _ _ ihf iha => exact (List.mem_append.mp ha).elim ihf iha
  | tyLam _ _ ih =>
    obtain ⟨ha, hne⟩ := List.mem_filter.mp ha
    obtain ⟨k, hk⟩ := ih ha
    rw [Function.update_of_ne (by simpa using hne)] at hk
    exact ⟨k, hk⟩
  | inst _ hk _ ih => exact (List.mem_append.mp ha).elim ih (Ty.exists_of_mem_free hk)
  | error hk => exact Ty.exists_of_mem_free hk ha

/-- The scopes matter only at the free names. -/
theorem congr {K L : NameKinds} {Γ Δ : NameTypes} {t : Term} {T : NamelessTy}
    (h : HasType K Γ t T) (hK : ∀ a ∈ t.freeTypes, K a = L a)
    (hΓ : ∀ x ∈ t.free, Γ x = Δ x) : HasType L Δ t T := by
  have hkind : ∀ {K L : NameKinds} {t : Ty} {k : Kind}, (∀ a ∈ t.free, K a = L a) →
      t.nameless.kind? (.ofNames K) = some k → t.nameless.kind? (.ofNames L) = some k := by
    intro K L t k hKL hk
    rw [← hk]
    exact (NamelessTy.kind?_ofNames_congr fun a ha => hKL a (Ty.mem_free.mpr ha)).symm
  induction h generalizing L Δ with
  | var h => exact .var ((hΓ _ (List.mem_singleton_self _)).symm.trans h)
  | @lam K Γ x declared body S T hk hS _ ih =>
    refine .lam (hkind (fun a ha => hK a (List.mem_append_left _ ha)) hk) hS
      (ih (fun a ha => hK a (List.mem_append_right _ ha)) fun y hy => ?_)
    by_cases hyx : y = x
    · simp [hyx]
    · rw [Function.update_of_ne hyx, Function.update_of_ne hyx]
      exact hΓ y (Term.mem_free_lam hy hyx)
  | app _ _ ihf iha =>
    exact .app
      (ihf (fun a ha => hK a (List.mem_append_left _ ha))
        fun x hx => hΓ x (List.mem_append_left _ hx))
      (iha (fun a ha => hK a (List.mem_append_right _ ha))
        fun x hx => hΓ x (List.mem_append_right _ hx))
  | @tyLam K Γ a k body T _ ha ih =>
    refine .tyLam (ih (fun b hb => ?_) hΓ) fun x hx S hS => ha x hx S ((hΓ x hx).trans hS)
    by_cases hba : b = a
    · simp [hba]
    · rw [Function.update_of_ne hba, Function.update_of_ne hba]
      exact hK b (List.mem_filter.mpr ⟨hb, by simpa using hba⟩)
  | inst _ hk hT ih =>
    exact .inst (ih (fun a ha => hK a (List.mem_append_left _ ha)) hΓ)
      (hkind (fun a ha => hK a (List.mem_append_right _ ha)) hk) hT
  | const l => exact .const l
  | error hk hS => exact .error (hkind hK hk) hS

end HasType

/-! ## Types of terms are types -/

/-- The types that a term refers to through its variables are normal and of kind `*`. -/
def NameTypes.WellKinded (Γ : NameTypes) (K : NameKinds) (t : Term) : Prop :=
  ∀ x ∈ t.free, ∀ S, Γ x = some S → S.Normal ∧ S.kind? (.ofNames K) = some .star

namespace NameTypes.WellKinded

variable {K : NameKinds} {Γ : NameTypes}

theorem left {f t : Term} (h : Γ.WellKinded K (.app f t)) : Γ.WellKinded K f :=
  fun x hx => h x (List.mem_append_left _ hx)

theorem right {f t : Term} (h : Γ.WellKinded K (.app f t)) : Γ.WellKinded K t :=
  fun x hx => h x (List.mem_append_right _ hx)

theorem lam {x : Name} {declared : Ty} {body : Term} {S : NamelessTy}
    (h : Γ.WellKinded K (.lam x declared body))
    (hk : declared.nameless.kind? (.ofNames K) = some .star)
    (hS : NormalForm declared.nameless S) :
    NameTypes.WellKinded (Function.update Γ x (some S)) K body := by
  intro y hy U hU
  by_cases hyx : y = x
  · rw [hyx, Function.update_self] at hU
    cases hU
    exact ⟨hS.normal, hS.steps.kind? hk⟩
  · rw [Function.update_of_ne hyx] at hU
    exact h y (Term.mem_free_lam hy hyx) U hU

theorem tyLam {a : TyName} {k : Kind} {body : Term} (h : Γ.WellKinded K (.tyLam a k body))
    (ha : ∀ x ∈ body.free, ∀ S, Γ x = some S → ¬ S.Occurs (.free a)) :
    Γ.WellKinded (Function.update K a (some k)) body := by
  intro x hx S hS
  refine ⟨(h x hx S hS).1, ?_⟩
  rw [← (h x hx S hS).2]
  refine NamelessTy.kind?_ofNames_congr fun b hb => ?_
  have hba : b ≠ a := fun hba => ha x hx S hS (hba ▸ hb)
  rw [Function.update_of_ne hba]

theorem empty (t : Term) : NameTypes.WellKinded (fun _ => none) K t :=
  fun _ _ _ hS => by cases hS

end NameTypes.WellKinded

/-- The type of a term is normal and has kind `*`. -/
theorem HasType.regular {K : NameKinds} {Γ : NameTypes} {t : Term} {T : NamelessTy}
    (h : HasType K Γ t T) (hΓ : Γ.WellKinded K t) :
    T.Normal ∧ T.kind? (.ofNames K) = some .star := by
  induction h with
  | var h => exact hΓ _ (List.mem_singleton_self _) _ h
  | lam hk hS _ ih =>
    obtain ⟨hT, hTk⟩ := ih (hΓ.lam hk hS)
    exact ⟨⟨hS.normal, hT⟩, NamelessTy.kind?_arrow.mpr ⟨hS.steps.kind? hk, hTk, rfl⟩⟩
  | app _ _ ihf _ =>
    obtain ⟨hn, hk⟩ := ihf hΓ.left
    exact ⟨hn.2, (NamelessTy.kind?_arrow.mp hk).2.1⟩
  | @tyLam K Γ a k body T _ ha ih =>
    obtain ⟨hn, hk⟩ := ih (hΓ.tyLam ha)
    refine ⟨(NamelessTy.normal_rename _ _).mpr hn, NamelessTy.kind?_all.mpr ⟨?_, rfl⟩⟩
    rw [NamelessTy.kind?_abstract, hk]
  | inst _ hk hT ih =>
    obtain ⟨_, hB⟩ := ih hΓ
    exact ⟨hT.normal, hT.steps.kind? (NamelessTy.kind?_inst (NamelessTy.kind?_all.mp hB).1 hk)⟩
  | const l => exact ⟨trivial, rfl⟩
  | error hk hS => exact ⟨hS.normal, hS.steps.kind? hk⟩

end FomegaLab
