-- Typing of nameless terms. A named term has a type exactly if its nameless form has
-- it, as long as no type abstraction takes a name that the type of a variable in its
-- body mentions. So the judgement does not see which names the binders have.
import FomegaLab.Proofs.Typing.Judgement

namespace FomegaLab

open NamelessTy (NormalForm)

/-- The types of the references to terms in scope. -/
abbrev TypeScope := Ref Name → Option NamelessTy

/-- The types in scope, seen from under one more type binder. -/
def TypeScope.pushTy (Θ : TypeScope) : TypeScope := fun r => (Θ r).map (·.rename Ref.succ)

/-- `HasNamelessType Δ Θ t T`: in the scopes `Δ` and `Θ`, the nameless term `t` has the
normal type `T`. -/
inductive HasNamelessType : KindScope → TypeScope → NamelessTerm → NamelessTy → Prop
  | var {Δ : KindScope} {Θ : TypeScope} {r : Ref Name} {T : NamelessTy} (h : Θ r = some T) :
      HasNamelessType Δ Θ (.var r) T
  | lam {Δ : KindScope} {Θ : TypeScope} {declared S T : NamelessTy} {body : NamelessTerm}
      (hk : declared.kind? Δ = some .star) (hS : NormalForm declared S)
      (h : HasNamelessType Δ (Ref.cons (some S) Θ) body T) :
      HasNamelessType Δ Θ (.lam declared body) (.arrow S T)
  | app {Δ : KindScope} {Θ : TypeScope} {function argument : NamelessTerm} {S T : NamelessTy}
      (hf : HasNamelessType Δ Θ function (.arrow S T)) (ha : HasNamelessType Δ Θ argument S) :
      HasNamelessType Δ Θ (.app function argument) T
  | tyLam {Δ : KindScope} {Θ : TypeScope} {k : Kind} {body : NamelessTerm} {T : NamelessTy}
      (h : HasNamelessType (Δ.push k) Θ.pushTy body T) :
      HasNamelessType Δ Θ (.tyLam k body) (.all k T)
  | inst {Δ : KindScope} {Θ : TypeScope} {term : NamelessTerm} {type B T : NamelessTy} {k : Kind}
      (ht : HasNamelessType Δ Θ term (.all k B)) (hk : type.kind? Δ = some k)
      (hT : NormalForm (B.inst type) T) : HasNamelessType Δ Θ (.inst term type) T
  | const {Δ : KindScope} {Θ : TypeScope} (l : Literal) :
      HasNamelessType Δ Θ (.const l) (.builtin l.builtin)
  | error {Δ : KindScope} {Θ : TypeScope} {declared S : NamelessTy}
      (hk : declared.kind? Δ = some .star) (hS : NormalForm declared S) :
      HasNamelessType Δ Θ (.error declared) S

/-- A term with a type refers to what is in scope, so a renaming matters only there. -/
theorem HasNamelessType.rename_congr {Δ : KindScope} {Θ : TypeScope} {t : NamelessTerm}
    {T : NamelessTy} (h : HasNamelessType Δ Θ t T) {ρ ρ' : Ref TyName → Ref TyName}
    {τ τ' : Ref Name → Ref Name} (hρ : ∀ r k, Δ r = some k → ρ r = ρ' r)
    (hτ : ∀ r S, Θ r = some S → τ r = τ' r) : t.rename ρ τ = t.rename ρ' τ' := by
  induction h generalizing ρ ρ' τ τ' with
  | var h => rw [NamelessTerm.rename, NamelessTerm.rename, hτ _ _ h]
  | @lam Δ Θ declared S T body hk hS _ ih =>
    have hbody : ∀ r U, Ref.cons (some S) Θ r = some U → Ref.lift τ r = Ref.lift τ' r := by
      intro r U hr
      cases r using Ref.succCases with
      | zero => rfl
      | succ r =>
        rw [Ref.cons_succ] at hr
        rw [Ref.lift_succ, Ref.lift_succ, hτ r U hr]
    rw [NamelessTerm.rename, NamelessTerm.rename, NamelessTy.rename_congr_of_kind? hk hρ,
      ih hρ hbody]
  | app _ _ ihf iha => rw [NamelessTerm.rename, NamelessTerm.rename, ihf hρ hτ, iha hρ hτ]
  | @tyLam Δ Θ k body T _ ih =>
    have hbody : ∀ r j, Δ.push k r = some j → Ref.lift ρ r = Ref.lift ρ' r := by
      intro r j hr
      cases r using Ref.succCases with
      | zero => rfl
      | succ r =>
        rw [KindScope.push_succ] at hr
        rw [Ref.lift_succ, Ref.lift_succ, hρ r j hr]
    have hscope : ∀ r U, Θ.pushTy r = some U → τ r = τ' r := by
      intro r U hr
      obtain ⟨S, hS, _⟩ := Option.map_eq_some_iff.mp hr
      exact hτ r S hS
    rw [NamelessTerm.rename, NamelessTerm.rename, ih hbody hscope]
  | inst _ hk _ ih =>
    rw [NamelessTerm.rename, NamelessTerm.rename, ih hρ hτ, NamelessTy.rename_congr_of_kind? hk hρ]
  | const => rfl
  | error hk _ =>
    rw [NamelessTerm.rename, NamelessTerm.rename, NamelessTy.rename_congr_of_kind? hk hρ]

/-! ## Scopes of both sides -/

/-- The renamings `ρ` and `τ` take the names of a term to references of which the nameless
scopes say what the scopes of names say of the names. -/
structure ScopesAgree (K : NameKinds) (Γ : NameTypes) (t : Term) (Δ : KindScope) (Θ : TypeScope)
    (ρ : Ref TyName → Ref TyName) (τ : Ref Name → Ref Name) : Prop where
  injective : Function.Injective ρ
  kinds : Δ ∘ ρ = KindScope.ofNames K
  types : ∀ x ∈ t.free, Θ (τ (.free x)) = (Γ x).map (·.rename ρ)

namespace ScopesAgree

variable {K : NameKinds} {Γ : NameTypes} {Δ : KindScope} {Θ : TypeScope}
  {ρ : Ref TyName → Ref TyName} {τ : Ref Name → Ref Name}

theorem empty (t : Term) :
    ScopesAgree (fun _ => none) (fun _ => none) t (.ofNames fun _ => none) (fun _ => none) id id :=
  ⟨Function.injective_id, rfl, fun _ _ => rfl⟩

theorem left {f t : Term} (h : ScopesAgree K Γ (.app f t) Δ Θ ρ τ) : ScopesAgree K Γ f Δ Θ ρ τ :=
  ⟨h.injective, h.kinds, fun x hx => h.types x (List.mem_append_left _ hx)⟩

theorem right {f t : Term} (h : ScopesAgree K Γ (.app f t) Δ Θ ρ τ) : ScopesAgree K Γ t Δ Θ ρ τ :=
  ⟨h.injective, h.kinds, fun x hx => h.types x (List.mem_append_right _ hx)⟩

theorem lam {x : Name} {declared : Ty} {body : Term}
    (h : ScopesAgree K Γ (.lam x declared body) Δ Θ ρ τ) (S : NamelessTy) :
    ScopesAgree K (Function.update Γ x (some S)) body Δ (Ref.cons (some (S.rename ρ)) Θ) ρ
      (Ref.lift τ ∘ Ref.bind x) := by
  refine ⟨h.injective, h.kinds, fun y hy => ?_⟩
  by_cases hyx : y = x
  · rw [hyx, Function.comp_apply, Ref.bind_self, Ref.lift_zero, Ref.cons_zero,
      Function.update_self]
    rfl
  · have hne : Ref.free y ≠ Ref.free x := by simp [hyx]
    rw [Function.comp_apply, Ref.bind_of_ne hne, Ref.lift_succ, Ref.cons_succ,
      Function.update_of_ne hyx]
    exact h.types y (Term.mem_free_lam hy hyx)

theorem tyLam {a : TyName} {k : Kind} {body : Term} (h : ScopesAgree K Γ (.tyLam a k body) Δ Θ ρ τ)
    (ha : ∀ x ∈ body.free, ∀ S, Γ x = some S → ¬ S.Occurs (.free a)) :
    ScopesAgree (Function.update K a (some k)) Γ body (Δ.push k) Θ.pushTy
      (Ref.lift ρ ∘ Ref.bind a) τ := by
  refine ⟨(Ref.lift_injective h.injective).comp (Ref.bind_injective a), ?_, fun x hx => ?_⟩
  · rw [← Function.comp_assoc, KindScope.push_comp_lift, h.kinds, KindScope.push_comp_bind]
  · rw [TypeScope.pushTy, h.types x hx, Option.map_map]
    refine Option.map_congr fun S hS => ?_
    -- the binder takes no occurrence in `S`, so it is only passed
    rw [Function.comp_apply, NamelessTy.rename_rename]
    refine NamelessTy.rename_congr fun r hr => ?_
    have hra : r ≠ .free a := fun hra => ha x hx S hS (hra ▸ hr)
    rw [Function.comp_apply, Function.comp_apply, Ref.bind_of_ne hra, Ref.lift_succ]

/-- A named type has the kind of its renamed nameless form. -/
theorem kind?_rename {t : Term} (h : ScopesAgree K Γ t Δ Θ ρ τ) (u : NamelessTy) :
    (u.rename ρ).kind? Δ = u.kind? (.ofNames K) := by
  rw [NamelessTy.kind?_rename, h.kinds]

end ScopesAgree

/-! ## From names to references and back -/

/-- The nameless form of a term has the type of the term. -/
theorem HasType.nameless {K : NameKinds} {Γ : NameTypes} {t : Term} {T : NamelessTy}
    (ht : HasType K Γ t T) {Δ : KindScope} {Θ : TypeScope} {ρ : Ref TyName → Ref TyName}
    {τ : Ref Name → Ref Name} (h : ScopesAgree K Γ t Δ Θ ρ τ) :
    HasNamelessType Δ Θ (t.nameless.rename ρ τ) (T.rename ρ) := by
  induction ht generalizing Δ Θ ρ τ with
  | @var K Γ x T hx =>
    apply HasNamelessType.var
    rw [h.types x (List.mem_singleton_self x), hx]
    rfl
  | @lam K Γ x declared body S T hk hS _ ih =>
    have hbody := ih (h.lam S)
    rw [← NamelessTerm.abstract_rename] at hbody
    exact .lam (by rw [h.kind?_rename, hk]) (hS.rename ρ) hbody
  | app _ _ ihf iha => exact .app (ihf h.left) (iha h.right)
  | @tyLam K Γ a k body T _ ha ih =>
    have hbody := ih (h.tyLam ha)
    rw [← NamelessTerm.abstractTy_rename, ← NamelessTy.rename_rename] at hbody
    exact .tyLam hbody
  | inst _ hk hT ih =>
    have hT' := hT.rename ρ
    rw [NamelessTy.inst_rename] at hT'
    exact .inst (ih ⟨h.injective, h.kinds, h.types⟩) (by rw [h.kind?_rename, hk]) hT'
  | const l => exact .const l
  | error hk hS => exact .error (by rw [h.kind?_rename, hk]) (hS.rename ρ)

/-- No type abstraction takes a name that the declared type of a variable mentions, if
the variable is declared outside of the abstraction and used inside. -/
def Term.Hygienic : Bindings Name Ty → Term → Prop
  | _, .var _ => True
  | declared, .lam x type body => body.Hygienic ((x, type) :: declared)
  | declared, .app function argument => function.Hygienic declared ∧ argument.Hygienic declared
  | declared, .tyLam a _ body =>
    (∀ x ∈ body.free, ∀ type, declared.lookup x = some type → a ∉ type.free) ∧
      body.Hygienic declared
  | declared, .inst term _ => term.Hygienic declared
  | _, .const _ => True
  | _, .error _ => True

/-- The types in scope of the free variables of a term mention no names but those that the
declared types mention. -/
def NameTypes.DeclaredBy (Γ : NameTypes) (declared : Bindings Name Ty) (t : Term) : Prop :=
  ∀ x ∈ t.free, ∀ S, Γ x = some S →
    ∃ type, declared.lookup x = some type ∧ ∀ a, S.Occurs (.free a) → a ∈ type.free

namespace NameTypes.DeclaredBy

variable {Γ : NameTypes} {declared : Bindings Name Ty}

theorem left {f t : Term} (h : Γ.DeclaredBy declared (.app f t)) : Γ.DeclaredBy declared f :=
  fun x hx => h x (List.mem_append_left _ hx)

theorem right {f t : Term} (h : Γ.DeclaredBy declared (.app f t)) : Γ.DeclaredBy declared t :=
  fun x hx => h x (List.mem_append_right _ hx)

theorem lam {x : Name} {type : Ty} {body : Term} {S : NamelessTy}
    (h : Γ.DeclaredBy declared (.lam x type body)) (hS : NormalForm type.nameless S) :
    NameTypes.DeclaredBy (Function.update Γ x (some S)) ((x, type) :: declared) body := by
  intro y hy U hU
  by_cases hyx : y = x
  · rw [hyx, Function.update_self] at hU
    cases hU
    refine ⟨type, by rw [hyx, List.lookup_cons_self], fun a ha => ?_⟩
    exact Ty.mem_free.mpr (hS.steps.occurs ha)
  · have hyx' : (y == x) = false := by simp [hyx]
    rw [Function.update_of_ne hyx] at hU
    rw [List.lookup_cons, hyx']
    exact h y (Term.mem_free_lam hy hyx) U hU

/-- A type abstraction that is hygienic takes no occurrence in the types in scope. -/
theorem not_occurs {a : TyName} {k : Kind} {body : Term}
    (h : Γ.DeclaredBy declared (.tyLam a k body)) (hh : (Term.tyLam a k body).Hygienic declared) :
    ∀ x ∈ body.free, ∀ S, Γ x = some S → ¬ S.Occurs (.free a) := by
  intro x hx S hS ha
  obtain ⟨type, htype, hfree⟩ := h x hx S hS
  exact hh.1 x hx type htype (hfree a ha)

end NameTypes.DeclaredBy

/-- A hygienic term has the type of its nameless form. -/
theorem HasNamelessType.named {t : Term} {Δ : KindScope} {Θ : TypeScope}
    {ρ : Ref TyName → Ref TyName} {τ : Ref Name → Ref Name} {T : NamelessTy}
    (ht : HasNamelessType Δ Θ (t.nameless.rename ρ τ) T) {K : NameKinds} {Γ : NameTypes}
    (h : ScopesAgree K Γ t Δ Θ ρ τ) {declared : Bindings Name Ty} (hh : t.Hygienic declared)
    (hd : Γ.DeclaredBy declared t) : ∃ U, T = U.rename ρ ∧ HasType K Γ t U := by
  induction t generalizing Δ Θ ρ τ T K Γ declared with
  | var x =>
    cases ht with
    | var hx =>
      rw [h.types x (List.mem_singleton_self x)] at hx
      obtain ⟨U, hU, rfl⟩ := Option.map_eq_some_iff.mp hx
      exact ⟨U, rfl, .var hU⟩
  | lam x type body ih =>
    cases ht with
    | lam hk hS hbody =>
      obtain ⟨S, rfl, hn⟩ := hS.of_rename h.injective
      rw [NamelessTerm.abstract_rename] at hbody
      obtain ⟨U, rfl, hU⟩ := ih hbody (h.lam S) hh (hd.lam hn)
      rw [h.kind?_rename] at hk
      exact ⟨.arrow S U, rfl, .lam hk hn hU⟩
  | app f t ihf iht =>
    cases ht with
    | app hf ha =>
      obtain ⟨F, hF, hfun⟩ := ihf hf h.left hh.1 hd.left
      obtain ⟨S', hS', harg⟩ := iht ha h.right hh.2 hd.right
      cases F with
      | arrow S U =>
        simp only [NamelessTy.rename, NamelessTy.arrow.injEq] at hF
        obtain ⟨rfl, rfl⟩ := hF
        cases NamelessTy.rename_injective h.injective hS'
        exact ⟨U, rfl, .app hfun harg⟩
      | _ => cases hF
  | tyLam a k body ih =>
    cases ht with
    | tyLam hbody =>
      have hocc := hd.not_occurs hh
      rw [NamelessTerm.abstractTy_rename] at hbody
      obtain ⟨U, rfl, hU⟩ := ih hbody (h.tyLam hocc) hh.2 hd
      refine ⟨.all k (U.abstract a), ?_, .tyLam hU hocc⟩
      rw [NamelessTy.rename, NamelessTy.abstract, NamelessTy.rename_rename]
  | inst t type ih =>
    cases ht with
    | inst ht hk hT =>
      obtain ⟨F, hF, hterm⟩ := ih ht ⟨h.injective, h.kinds, h.types⟩ hh hd
      cases F with
      | all j B =>
        simp only [NamelessTy.rename, NamelessTy.all.injEq] at hF
        obtain ⟨rfl, rfl⟩ := hF
        rw [← NamelessTy.inst_rename] at hT
        obtain ⟨U, rfl, hU⟩ := hT.of_rename h.injective
        rw [h.kind?_rename] at hk
        exact ⟨U, rfl, .inst hterm hk hU⟩
      | _ => cases hF
  | const l =>
    cases ht
    exact ⟨.builtin l.builtin, rfl, .const l⟩
  | error type =>
    cases ht with
    | error hk hS =>
      obtain ⟨S, rfl, hn⟩ := hS.of_rename h.injective
      rw [h.kind?_rename] at hk
      exact ⟨S, rfl, .error hk hn⟩

end FomegaLab
