-- Inference decides the typing judgement. Whatever type it returns is the type of
-- the term. With enough fuel it returns one for every term that has a type, and
-- the fuel does not depend on the supply of uniques.
import FomegaLab.Named.Typing
import FomegaLab.Proofs.Named.Normal
import FomegaLab.Proofs.Typing.Judgement

namespace FomegaLab

open NamelessTy (NormalForm)

/-! ## Runs of the checker -/

namespace Typing

variable {fuel : Nat} {n m : Int}

theorem run_ofKinding {α : Type} {e : Except TypeFault α} {a : α} :
    (Typing.ofKinding e).run n = (.ok a, m) ↔ e = .ok a ∧ n = m := by
  cases e with
  | error f =>
    refine ⟨fun h => absurd h Fresh.run_throw_ne_ok, ?_⟩
    rintro ⟨h, _⟩
    cases h
  | ok b => exact Fresh.run_pure_eq_ok.trans (by rw [Except.ok.injEq])

theorem run_normalForm {t t' : Ty} :
    (Typing.normalForm fuel t).run n = (.ok t', m) ↔
      (t.normalize fuel).run n = (some t', m) := by
  simp only [Typing.normalForm, Fresh.run_bind_eq_ok, Fresh.run_lift_eq_ok]
  constructor
  · rintro ⟨o, k, ho, h⟩
    cases o with
    | none => exact absurd h Fresh.run_throw_ne_ok
    | some u =>
      obtain ⟨rfl, rfl⟩ := Fresh.run_pure_eq_ok.mp h
      exact ho
  · intro h
    exact ⟨some t', m, h, Fresh.run_pure_eq_ok.mpr ⟨rfl, rfl⟩⟩

end Typing

namespace Term

section Runs

variable {fuel : Nat} {builtins : BuiltinKinds} {kinds : Bindings TyName Kind}
  {types : Bindings Name Ty} {n m : Int} {T : Ty}

theorem run_inferType_var {x : Name} :
    ((Term.var x).inferType fuel builtins kinds types).run n = (.ok T, m) ↔
      types.lookup x = some T ∧ n = m := by
  unfold inferType
  cases types.lookup x with
  | none =>
    refine ⟨fun h => absurd h Fresh.run_throw_ne_ok, ?_⟩
    rintro ⟨h, _⟩
    cases h
  | some S => rw [Option.some.injEq]; exact Fresh.run_pure_eq_ok

theorem run_inferType_lam {x : Name} {declared : Ty} {body : Term} :
    ((Term.lam x declared body).inferType fuel builtins kinds types).run n = (.ok T, m) ↔
      declared.nameless.kind? (.ofNames fun a => kinds.lookup a) = some .star ∧
        ∃ S k U, (declared.normalize fuel).run n = (some S, k) ∧
          (body.inferType fuel builtins kinds ((x, S) :: types)).run k = (.ok U, m) ∧
            .arrow S U = T := by
  simp only [inferType, Fresh.run_bind_eq_ok, Typing.run_ofKinding, Ty.checkKind_eq_ok,
    Typing.run_normalForm, Fresh.run_pure_eq_ok]
  constructor
  · rintro ⟨_, _, ⟨hk, rfl⟩, S, k, hS, U, _, hU, hT, rfl⟩
    exact ⟨hk, S, k, U, hS, hU, hT⟩
  · rintro ⟨hk, S, k, U, hS, hU, hT⟩
    exact ⟨(), n, ⟨hk, rfl⟩, S, k, hS, U, m, hU, hT, rfl⟩

theorem run_inferType_app {f t : Term} :
    ((Term.app f t).inferType fuel builtins kinds types).run n = (.ok T, m) ↔
      ∃ S k S', (f.inferType fuel builtins kinds types).run n = (.ok (.arrow S T), k) ∧
        (t.inferType fuel builtins kinds types).run k = (.ok S', m) ∧
          S'.nameless = S.nameless := by
  simp only [inferType, Fresh.run_bind_eq_ok]
  constructor
  · rintro ⟨F, k, hF, h⟩
    cases F with
    | arrow S U =>
      obtain ⟨S', l, hS', h⟩ := Fresh.run_bind_eq_ok.mp h
      split at h
      · rename_i hα
        obtain ⟨rfl, rfl⟩ := Fresh.run_pure_eq_ok.mp h
        exact ⟨S, k, S', hF, hS', Ty.alphaEq_iff.mp hα⟩
      · exact absurd h Fresh.run_throw_ne_ok
    | _ => exact absurd h Fresh.run_throw_ne_ok
  · rintro ⟨S, k, S', hF, hS', hα⟩
    refine ⟨.arrow S T, k, hF, Fresh.run_bind_eq_ok.mpr ⟨S', m, hS', ?_⟩⟩
    rw [if_pos (Ty.alphaEq_iff.mpr hα)]
    exact Fresh.run_pure_eq_ok.mpr ⟨rfl, rfl⟩

theorem run_inferType_tyLam {a : TyName} {k : Kind} {body : Term} :
    ((Term.tyLam a k body).inferType fuel builtins kinds types).run n = (.ok T, m) ↔
      ∃ U, (body.inferType fuel builtins ((a, k) :: kinds) types).run n = (.ok U, m) ∧
        .all a k U = T := by
  simp only [inferType, Fresh.run_bind_eq_ok, Fresh.run_pure_eq_ok]
  constructor
  · rintro ⟨U, _, hU, hT, rfl⟩
    exact ⟨U, hU, hT⟩
  · rintro ⟨U, hU, hT⟩
    exact ⟨U, m, hU, hT, rfl⟩

theorem run_inferType_inst {t : Term} {type : Ty} :
    ((Term.inst t type).inferType fuel builtins kinds types).run n = (.ok T, m) ↔
      ∃ a k B l type' l',
        (t.inferType fuel builtins kinds types).run n = (.ok (.all a k B), l) ∧
          type.nameless.kind? (.ofNames fun a => kinds.lookup a) = some k ∧
            (type.normalize fuel).run l = (some type', l') ∧
              ((B.subst a type' l').1.normalize fuel).run (B.subst a type' l').2 = (some T, m) := by
  simp only [inferType, Fresh.run_bind_eq_ok]
  constructor
  · rintro ⟨F, l, hF, h⟩
    cases F with
    | all a k B =>
      simp only [Fresh.run_bind_eq_ok, Typing.run_ofKinding, Ty.checkKind_eq_ok,
        Typing.run_normalForm, Fresh.run_lift_eq_ok] at h
      obtain ⟨_, _, ⟨hk, rfl⟩, type', l', hn, B', l₂, hB, h⟩ := h
      refine ⟨a, k, B, l, type', l', hF, hk, hn, ?_⟩
      rw [hB]
      exact h
    | _ => exact absurd h Fresh.run_throw_ne_ok
  · rintro ⟨a, k, B, l, type', l', hF, hk, hn, h⟩
    refine ⟨.all a k B, l, hF, ?_⟩
    simp only [Fresh.run_bind_eq_ok, Typing.run_ofKinding, Ty.checkKind_eq_ok,
      Typing.run_normalForm, Fresh.run_lift_eq_ok]
    exact ⟨(), l, ⟨hk, rfl⟩, type', l', hn, _, _, rfl, h⟩

theorem run_inferType_const {l : Literal} :
    ((Term.const l).inferType fuel builtins kinds types).run n = (.ok T, m) ↔
      builtins l.builtin = some .star ∧ .builtin l.builtin = T ∧ n = m := by
  unfold inferType
  split_ifs with hl
  · rw [Fresh.run_pure_eq_ok]
    exact ⟨fun h => ⟨hl, h⟩, fun h => h.2⟩
  · exact ⟨fun h => absurd h Fresh.run_throw_ne_ok, fun h => absurd h.1 hl⟩

theorem run_inferType_error {declared : Ty} :
    ((Term.error declared).inferType fuel builtins kinds types).run n = (.ok T, m) ↔
      declared.nameless.kind? (.ofNames fun a => kinds.lookup a) = some .star ∧
        (declared.normalize fuel).run n = (some T, m) := by
  simp only [inferType, Fresh.run_bind_eq_ok, Typing.run_ofKinding, Ty.checkKind_eq_ok,
    Typing.run_normalForm]
  constructor
  · rintro ⟨_, _, ⟨hk, rfl⟩, h⟩
    exact ⟨hk, h⟩
  · rintro ⟨hk, h⟩
    exact ⟨(), n, ⟨hk, rfl⟩, h⟩

end Runs

/-! ## What inference needs to know about a term -/

/-- No type abstraction binds a name of `outer`, or the name of a type abstraction
that it stands in. -/
def TyLamsApart (outer : List TyName) : Term → Prop
  | .var _ => True
  | .lam _ _ body => body.TyLamsApart outer
  | .app function argument => function.TyLamsApart outer ∧ argument.TyLamsApart outer
  | .tyLam a _ body => a ∉ outer ∧ body.TyLamsApart (a :: outer)
  | .inst term _ => term.TyLamsApart outer
  | .const _ => True
  | .error _ => True

end Term

/-- The types of the variables in scope, in nameless form. -/
def namelessTypes (types : Bindings Name Ty) : NameTypes :=
  fun x => (types.lookup x).map Ty.nameless

theorem namelessTypes_cons (x : Name) (S : Ty) (types : Bindings Name Ty) :
    namelessTypes ((x, S) :: types) =
      Function.update (namelessTypes types) x (some S.nameless) := by
  funext y
  by_cases h : y = x
  · simp [namelessTypes, h]
  · have hyx : (y == x) = false := by simp [h]
    simp only [namelessTypes, List.lookup_cons, hyx, Function.update_of_ne h]

/-! ## Whatever is returned is the type -/

/-- The types in scope are types, and new names will be new to them. -/
def TypesInScope (n : Int) (kinds : Bindings TyName Kind) (types : Bindings Name Ty) : Prop :=
  ∀ x S, types.lookup x = some S →
    S.Below n ∧ S.nameless.kind? (.ofNames fun a => kinds.lookup a) = some .star

namespace TypesInScope

variable {n m : Int} {kinds : Bindings TyName Kind} {types : Bindings Name Ty}

theorem empty (n : Int) : TypesInScope n [] [] := nofun

theorem mono (h : TypesInScope n kinds types) (hnm : n ≤ m) : TypesInScope m kinds types :=
  fun x S hS => ⟨(h x S hS).1.mono hnm, (h x S hS).2⟩

theorem cons (h : TypesInScope n kinds types) (x : Name) {S : Ty} (hb : S.Below n)
    (hk : S.nameless.kind? (.ofNames fun a => kinds.lookup a) = some .star) :
    TypesInScope n kinds ((x, S) :: types) := by
  intro y U hU
  by_cases hyx : y = x
  · rw [hyx, List.lookup_cons_self] at hU
    cases hU
    exact ⟨hb, hk⟩
  · have hyx' : (y == x) = false := by simp [hyx]
    rw [List.lookup_cons, hyx'] at hU
    exact h y U hU

/-- A name without a kind occurs in no type in scope. -/
theorem not_occurs (h : TypesInScope n kinds types) {a : TyName} (ha : kinds.lookup a = none)
    {x : Name} {S : Ty} (hS : types.lookup x = some S) : ¬ S.nameless.Occurs (.free a) := by
  intro hoccurs
  obtain ⟨j, hj⟩ := NamelessTy.kind?_of_occurs (h x S hS).2 hoccurs
  rw [KindScope.ofNames, ha] at hj
  cases hj

theorem bindTyName (h : TypesInScope n kinds types) {a : TyName} (ha : kinds.lookup a = none)
    (k : Kind) : TypesInScope n ((a, k) :: kinds) types := by
  intro x S hS
  refine ⟨(h x S hS).1, ?_⟩
  rw [← (h x S hS).2, lookup_cons_eq_update]
  refine NamelessTy.kind?_ofNames_congr fun b hb => ?_
  have hba : b ≠ a := fun hba => h.not_occurs ha hS (hba ▸ hb)
  rw [Function.update_of_ne hba]

end TypesInScope

theorem lookup_eq_none_of_not_mem {kinds : Bindings TyName Kind} {a : TyName}
    (h : a ∉ kinds.map Prod.fst) : kinds.lookup a = none := by
  rw [List.lookup_eq_none_iff]
  intro p hp
  have hpa : a ≠ p.1 := fun hap => h (hap ▸ List.mem_map_of_mem hp)
  simpa using hpa

theorem Term.inferType_sound {fuel : Nat} {builtins : BuiltinKinds}
    {kinds : Bindings TyName Kind} {types : Bindings Name Ty} {t : Term} {T : Ty} {n m : Int}
    (htypes : TypesInScope n kinds types) (hb : t.Below n)
    (hapart : t.TyLamsApart (kinds.map Prod.fst))
    (h : (t.inferType fuel builtins kinds types).run n = (.ok T, m)) :
    n ≤ m ∧ T.Below m ∧
      HasType (fun a => kinds.lookup a) (namelessTypes types) t T.nameless := by
  induction t generalizing kinds types T n m with
  | var x =>
    obtain ⟨hx, rfl⟩ := run_inferType_var.mp h
    exact ⟨Int.le_refl _, (htypes x T hx).1, .var (by rw [namelessTypes, hx]; rfl)⟩
  | lam x declared body ih =>
    obtain ⟨hk, S, l, U, hS, hU, rfl⟩ := run_inferType_lam.mp h
    obtain ⟨hle₁, hbS, hn⟩ := Ty.normalize_sound hb.2.1 hS
    obtain ⟨hle₂, hbU, hT⟩ := ih ((htypes.mono hle₁).cons x hbS (hn.steps.kind? hk))
      (hb.2.2.mono hle₁) hapart hU
    rw [namelessTypes_cons] at hT
    exact ⟨by omega, ⟨hbS.mono hle₂, hbU⟩, .lam hk hn hT⟩
  | app f t ihf iht =>
    obtain ⟨S, l, S', hf, ht, hα⟩ := run_inferType_app.mp h
    obtain ⟨hle₁, hbf, hTf⟩ := ihf htypes hb.1 hapart.1 hf
    obtain ⟨hle₂, _, hTt⟩ := iht (htypes.mono hle₁) (hb.2.mono hle₁) hapart.2 ht
    rw [hα] at hTt
    exact ⟨by omega, hbf.2.mono hle₂, .app hTf hTt⟩
  | tyLam a k body ih =>
    obtain ⟨U, hU, rfl⟩ := run_inferType_tyLam.mp h
    have ha := lookup_eq_none_of_not_mem hapart.1
    obtain ⟨hle, hbU, hT⟩ := ih (htypes.bindTyName ha k) hb.2 hapart.2 hU
    rw [lookup_cons_eq_update] at hT
    refine ⟨hle, ⟨Int.lt_of_lt_of_le hb.1 hle, hbU⟩, .tyLam hT ?_⟩
    intro x _ S hS
    obtain ⟨S', hS', rfl⟩ := Option.map_eq_some_iff.mp hS
    exact htypes.not_occurs ha hS'
  | inst t type ih =>
    obtain ⟨a, k, B, l, type', l', ht, hk, hn, hT⟩ := run_inferType_inst.mp h
    obtain ⟨hle₁, hbB, hTt⟩ := ih htypes hb.1 hapart ht
    obtain ⟨hle₂, hbn, hnf⟩ := Ty.normalize_sound (hb.2.mono hle₁) hn
    have hsubst := Ty.subst_spec (hbB.2.mono hle₂) (Int.lt_of_lt_of_le hbB.1 hle₂) hbn
    obtain ⟨hle₃, hbT, hnT⟩ := Ty.normalize_sound hsubst.below hT
    refine ⟨by have := hsubst.le; omega, hbT, .inst hTt hk (.of_steps ?_ hnT)⟩
    rw [hsubst.nameless_eq_inst]
    exact .inst .refl hnf.steps
  | const l =>
    obtain ⟨_, rfl, rfl⟩ := run_inferType_const.mp h
    exact ⟨Int.le_refl _, trivial, .const l⟩
  | error declared =>
    obtain ⟨hk, hS⟩ := run_inferType_error.mp h
    obtain ⟨hle, hbS, hn⟩ := Ty.normalize_sound hb hS
    exact ⟨hle, hbS, .error hk hn⟩

/-! ## Enough fuel -/

/-- The scope of inference says of the free variables of a term what the scope of the
judgement says. -/
def NameTypes.Agrees (Γ : NameTypes) (n : Int) (types : Bindings Name Ty) (t : Term) : Prop :=
  ∀ x ∈ t.free, ∀ S, Γ x = some S → ∃ S', types.lookup x = some S' ∧ S'.nameless = S ∧ S'.Below n

namespace NameTypes.Agrees

variable {Γ : NameTypes} {n m : Int} {types : Bindings Name Ty}

theorem mono {t : Term} (h : Γ.Agrees n types t) (hnm : n ≤ m) : Γ.Agrees m types t := by
  intro x hx S hS
  obtain ⟨S', hS', hname, hb⟩ := h x hx S hS
  exact ⟨S', hS', hname, hb.mono hnm⟩

theorem left {f t : Term} (h : Γ.Agrees n types (.app f t)) : Γ.Agrees n types f :=
  fun x hx => h x (List.mem_append_left _ hx)

theorem right {f t : Term} (h : Γ.Agrees n types (.app f t)) : Γ.Agrees n types t :=
  fun x hx => h x (List.mem_append_right _ hx)

theorem lam {x : Name} {declared : Ty} {body : Term} (h : Γ.Agrees n types (.lam x declared body))
    {S : Ty} (hb : S.Below n) :
    NameTypes.Agrees (Function.update Γ x (some S.nameless)) n ((x, S) :: types) body := by
  intro y hy U hU
  by_cases hyx : y = x
  · rw [hyx, Function.update_self] at hU
    cases hU
    exact ⟨S, by rw [hyx, List.lookup_cons_self], rfl, hb⟩
  · have hyx' : (y == x) = false := by simp [hyx]
    rw [Function.update_of_ne hyx] at hU
    rw [List.lookup_cons, hyx']
    exact h y (Term.mem_free_lam hy hyx) U hU

end NameTypes.Agrees

/-- What a run of inference returns for a term of type `T`. -/
structure InferSpec (n : Int) (T : NamelessTy) (T' : Ty) (m : Int) : Prop where
  le : n ≤ m
  below : T'.Below m
  nameless_eq : T'.nameless = T

/-- With enough fuel, inference finds the type of the term, whatever its scope, as long as it
knows what the scope of the judgement knows. -/
def Term.EndsInType (K : NameKinds) (Γ : NameTypes) (t : Term) (T : NamelessTy) : Prop :=
  ∃ d, ∀ fuel ≥ d, ∀ kinds types n, (fun a => List.lookup a kinds) = K →
    Γ.Agrees n types t → t.Below n →
      ∃ T' m, (t.inferType fuel .default kinds types).run n = (.ok T', m) ∧ InferSpec n T T' m

namespace Term.EndsInType

variable {K : NameKinds} {Γ : NameTypes} {f t body : Term} {type : Ty} {S T : NamelessTy}

theorem var {x : Name} (hx : Γ x = some T) : EndsInType K Γ (.var x) T := by
  refine ⟨0, fun fuel _ kinds types n _ htypes _ => ?_⟩
  obtain ⟨S', hS', hname, hb⟩ := htypes x (List.mem_singleton_self x) T hx
  exact ⟨S', n, run_inferType_var.mpr ⟨hS', rfl⟩, Int.le_refl n, hb, hname⟩

theorem const (l : Literal) : EndsInType K Γ (.const l) (.builtin l.builtin) := by
  refine ⟨0, fun fuel _ kinds types n _ _ _ => ?_⟩
  exact ⟨.builtin l.builtin, n, run_inferType_const.mpr ⟨rfl, rfl, rfl⟩, Int.le_refl n, trivial,
    rfl⟩

theorem error (hk : type.nameless.kind? (.ofNames K) = some .star)
    (hS : NormalForm type.nameless S) : EndsInType K Γ (.error type) S := by
  obtain ⟨d, h⟩ := Ty.exists_normalize hk
  refine ⟨d, fun fuel hfuel kinds types n hkinds _ hb => ?_⟩
  obtain ⟨S', m, hrun, hle, hbS, hn⟩ := h fuel hfuel _ n rfl hb
  exact ⟨S', m, run_inferType_error.mpr ⟨hkinds ▸ hk, hrun⟩, hle, hbS, hn.unique hS⟩

theorem lam {x : Name} (hk : type.nameless.kind? (.ofNames K) = some .star)
    (hS : NormalForm type.nameless S)
    (h : EndsInType K (Function.update Γ x (some S)) body T) :
    EndsInType K Γ (.lam x type body) (.arrow S T) := by
  obtain ⟨d₁, h₁⟩ := Ty.exists_normalize hk
  obtain ⟨d₂, h₂⟩ := h
  refine ⟨max d₁ d₂, fun fuel hfuel kinds types n hkinds htypes hb => ?_⟩
  obtain ⟨S', l, hrun₁, hle₁, hbS, hn⟩ := h₁ fuel (by omega) _ n rfl hb.2.1
  cases hS.unique hn
  obtain ⟨T', m, hrun₂, hle₂, hbT, rfl⟩ := h₂ fuel (by omega) kinds ((x, S') :: types) l hkinds
    ((htypes.mono hle₁).lam hbS) (hb.2.2.mono hle₁)
  refine ⟨.arrow S' T', m, ?_, by omega, ⟨hbS.mono hle₂, hbT⟩, rfl⟩
  exact run_inferType_lam.mpr ⟨hkinds ▸ hk, S', l, T', hrun₁, hrun₂, rfl⟩

theorem app (hf : EndsInType K Γ f (.arrow S T)) (ht : EndsInType K Γ t S) :
    EndsInType K Γ (.app f t) T := by
  obtain ⟨d₁, h₁⟩ := hf
  obtain ⟨d₂, h₂⟩ := ht
  refine ⟨max d₁ d₂, fun fuel hfuel kinds types n hkinds htypes hb => ?_⟩
  obtain ⟨F, l, hrun₁, hle₁, hbF, hF⟩ := h₁ fuel (by omega) kinds types n hkinds htypes.left hb.1
  obtain ⟨S', m, hrun₂, hle₂, _, hS⟩ := h₂ fuel (by omega) kinds types l hkinds
    (htypes.right.mono hle₁) (hb.2.mono hle₁)
  cases F with
  | arrow S T =>
    cases hF
    refine ⟨T, m, ?_, by omega, hbF.2.mono hle₂, rfl⟩
    exact run_inferType_app.mpr ⟨S, l, S', hrun₁, hrun₂, hS⟩
  | _ => cases hF

theorem tyLam {a : TyName} {k : Kind} (h : EndsInType (Function.update K a (some k)) Γ body T) :
    EndsInType K Γ (.tyLam a k body) (.all k (T.abstract a)) := by
  obtain ⟨d, h⟩ := h
  refine ⟨d, fun fuel hfuel kinds types n hkinds htypes hb => ?_⟩
  obtain ⟨U, m, hrun, hle, hbU, rfl⟩ := h fuel hfuel ((a, k) :: kinds) types n
    (by rw [lookup_cons_eq_update, hkinds]) htypes hb.2
  refine ⟨.all a k U, m, ?_, hle, ⟨Int.lt_of_lt_of_le hb.1 hle, hbU⟩, rfl⟩
  exact run_inferType_tyLam.mpr ⟨U, hrun, rfl⟩

/-- Inference normalizes the argument before it instantiates, and what comes out of it. -/
theorem inst {k : Kind} {B : NamelessTy} (h : EndsInType K Γ t (.all k B))
    (hB : B.kind? ((KindScope.ofNames K).push k) = some .star)
    (hk : type.nameless.kind? (.ofNames K) = some k) (hT : NormalForm (B.inst type.nameless) T) :
    EndsInType K Γ (.inst t type) T := by
  obtain ⟨S, hS⟩ := NamelessTy.exists_normalForm hk
  obtain ⟨d₁, h₁⟩ := h
  obtain ⟨d₂, h₂⟩ := Ty.exists_normalize hk
  obtain ⟨d₃, h₃⟩ := Ty.exists_normalize (NamelessTy.kind?_inst hB (hS.steps.kind? hk))
  refine ⟨max d₁ (max d₂ d₃), fun fuel hfuel kinds types n hkinds htypes hb => ?_⟩
  obtain ⟨F, l, hrun₁, hle₁, hbF, hF⟩ := h₁ fuel (by omega) kinds types n hkinds htypes hb.1
  obtain ⟨type', l', hrun₂, hle₂, hbn, hn⟩ := h₂ fuel (by omega) type l rfl (hb.2.mono hle₁)
  cases hS.unique hn
  cases F with
  | all a j B =>
    cases hF
    have hsubst := Ty.subst_spec (hbF.2.mono hle₂) (Int.lt_of_lt_of_le hbF.1 hle₂) hbn
    have hle := hsubst.le
    have hname := hsubst.nameless_eq_inst
    obtain ⟨T', m, hrun₃, hle₃, hbT, hnT⟩ := h₃ fuel (by omega) _ _ hname hsubst.below
    refine ⟨T', m, ?_, by omega, hbT, ?_⟩
    · exact run_inferType_inst.mpr ⟨a, _, B, l, type', l', hrun₁, hkinds ▸ hk, hrun₂, hrun₃⟩
    · rw [hname] at hnT
      exact hnT.unique (hT.after_steps (.inst .refl hS.steps))
  | _ => cases hF

end Term.EndsInType

/-- With enough fuel, inference finds the type of every term that has one. -/
theorem HasType.exists_inferType {K : NameKinds} {Γ : NameTypes} {t : Term} {T : NamelessTy}
    (h : HasType K Γ t T) (hΓ : Γ.WellKinded K t) : t.EndsInType K Γ T := by
  induction h with
  | var h => exact .var h
  | lam hk hS _ ih => exact .lam hk hS (ih (hΓ.lam hk hS))
  | app _ _ ihf iht => exact .app (ihf hΓ.left) (iht hΓ.right)
  | tyLam _ ha ih => exact .tyLam (ih (hΓ.tyLam ha))
  | inst ht hk hT ih => exact .inst (ih hΓ) (NamelessTy.kind?_all.mp (ht.regular hΓ).2).1 hk hT
  | const l => exact .const l
  | error hk hS => exact .error hk hS

end FomegaLab
