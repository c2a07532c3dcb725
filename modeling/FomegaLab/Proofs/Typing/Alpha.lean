-- Inference on terms that differ only in the names of their binders. The judgement
-- does not see these names, and inference decides the judgement: it returns the type
-- of a term that has one and faults a term that has none. The exception are type
-- abstractions that take the name of a type in scope, where inference lets the new
-- binder capture the occurrence in that type.
import FomegaLab.Proofs.Typing.Inference
import FomegaLab.Proofs.Typing.Nameless
import FomegaLab.Proofs.Typing.Substitution

namespace FomegaLab

/-! ## Runs that find a fault -/

/-- The run of `x` from the supply `n` finds a fault of the term. -/
def Typing.Faults {α : Type} (x : Typing α) (n : Int) : Prop :=
  ∃ f m, x.run n = (.error (.fault f), m)

namespace Typing.Faults

variable {α β : Type} {n k : Int}

theorem throw (f : TypeFault) (n : Int) :
    Typing.Faults (throw (TypeError.fault f) : Typing α) n :=
  ⟨f, n, rfl⟩

theorem bind {x : Typing α} (h : x.Faults n) (g : α → Typing β) : Typing.Faults (x >>= g) n := by
  obtain ⟨f, m, h⟩ := h
  exact ⟨f, m, Fresh.run_bind_of_error h⟩

theorem after {x : Typing α} {a : α} (hx : x.run n = (.ok a, k)) {g : α → Typing β}
    (h : (g a).Faults k) : Typing.Faults (x >>= g) n := by
  obtain ⟨f, m, h⟩ := h
  exact ⟨f, m, (Fresh.run_bind_of_ok hx).trans h⟩

theorem ofKinding {e : Except TypeFault α} (h : ∀ a, e ≠ .ok a) (n : Int) :
    (Typing.ofKinding e).Faults n := by
  cases e with
  | error f => exact throw f n
  | ok a => exact absurd rfl (h a)

/-- A type that does not have the kind `k` is faulted by the check for it. -/
theorem checkKind {t : Ty} {kinds : Bindings TyName Kind} {k : Kind}
    (h : t.nameless.kind? (.ofNames fun a => kinds.lookup a) ≠ some k) (n : Int) :
    (Typing.ofKinding (t.checkKind kinds k)).Faults n :=
  ofKinding (fun _ hk => h (Ty.checkKind_eq_ok.mp hk)) n

end Typing.Faults

/-- A type of the kind `k` passes the check for it. -/
theorem Typing.run_checkKind {t : Ty} {kinds : Bindings TyName Kind} {k : Kind}
    (h : t.nameless.kind? (.ofNames fun a => kinds.lookup a) = some k) (n : Int) :
    (Typing.ofKinding (t.checkKind kinds k)).run n = (.ok (), n) :=
  Typing.run_ofKinding.mpr ⟨Ty.checkKind_eq_ok.mpr h, rfl⟩

/-! ## Terms without a type -/

/-- The scope of inference knows the free variables of a term that the scope of the
judgement knows, with the types that it has for them. -/
structure NameTypes.SameScope (Γ : NameTypes) (n : Int) (types : Bindings Name Ty) (t : Term) :
    Prop where
  agrees : Γ.Agrees n types t
  unknown : ∀ x ∈ t.free, Γ x = none → types.lookup x = none

namespace NameTypes.SameScope

variable {Γ : NameTypes} {n m : Int} {types : Bindings Name Ty}

theorem empty (n : Int) (t : Term) : NameTypes.SameScope (fun _ => none) n [] t :=
  ⟨nofun, fun _ _ _ => rfl⟩

theorem mono {t : Term} (h : Γ.SameScope n types t) (hnm : n ≤ m) : Γ.SameScope m types t :=
  ⟨h.agrees.mono hnm, h.unknown⟩

theorem left {f t : Term} (h : Γ.SameScope n types (.app f t)) : Γ.SameScope n types f :=
  ⟨h.agrees.left, fun x hx => h.unknown x (List.mem_append_left _ hx)⟩

theorem right {f t : Term} (h : Γ.SameScope n types (.app f t)) : Γ.SameScope n types t :=
  ⟨h.agrees.right, fun x hx => h.unknown x (List.mem_append_right _ hx)⟩

theorem lam {x : Name} {declared : Ty} {body : Term}
    (h : Γ.SameScope n types (.lam x declared body)) {S : Ty} (hb : S.Below n) :
    NameTypes.SameScope (Function.update Γ x (some S.nameless)) n ((x, S) :: types) body := by
  refine ⟨h.agrees.lam hb, fun y hy hnone => ?_⟩
  have hyx : y ≠ x := by
    rintro rfl
    rw [Function.update_self] at hnone
    cases hnone
  have hyx' : (y == x) = false := by simp [hyx]
  rw [Function.update_of_ne hyx] at hnone
  rw [List.lookup_cons, hyx']
  exact h.unknown y (Term.mem_free_lam hy hyx) hnone

end NameTypes.SameScope

/-- With enough fuel, inference finds a fault of the term, whatever its scope, as long as it
knows what the scope of the judgement knows. -/
def Term.EndsInFault (K : NameKinds) (Γ : NameTypes) (t : Term) : Prop :=
  ∃ d, ∀ fuel ≥ d, ∀ kinds types n, (fun a => List.lookup a kinds) = K →
    Γ.SameScope n types t → t.Below n → (t.inferType fuel .default kinds types).Faults n

namespace Term.EndsInFault

variable {K : NameKinds} {Γ : NameTypes} {f t body : Term} {type : Ty} {F S : NamelessTy}

theorem var {x : Name} (hx : Γ x = none) : EndsInFault K Γ (.var x) := by
  refine ⟨0, fun fuel _ kinds types n _ htypes _ => ?_⟩
  rw [inferType, htypes.unknown x (List.mem_singleton_self x) hx]
  exact .throw _ n

/-- The declared type of a binder is no type of terms. -/
theorem lam_declared {x : Name} (hk : type.nameless.kind? (.ofNames K) ≠ some .star) :
    EndsInFault K Γ (.lam x type body) := by
  refine ⟨0, fun fuel _ kinds types n hkinds _ _ => ?_⟩
  exact (Typing.Faults.checkKind (hkinds ▸ hk) n).bind _

theorem lam_body {x : Name} (hk : type.nameless.kind? (.ofNames K) = some .star)
    (hS : NamelessTy.NormalForm type.nameless S)
    (h : EndsInFault K (Function.update Γ x (some S)) body) :
    EndsInFault K Γ (.lam x type body) := by
  obtain ⟨d₁, h₁⟩ := Ty.exists_normalize hk
  obtain ⟨d₂, h₂⟩ := h
  refine ⟨max d₁ d₂, fun fuel hfuel kinds types n hkinds htypes hb => ?_⟩
  obtain ⟨S', l, hrun, hle, hbS, hn⟩ := h₁ fuel (by omega) _ n rfl hb.2.1
  cases hS.unique hn
  have hbody := h₂ fuel (by omega) kinds ((x, S') :: types) l hkinds
    ((htypes.mono hle).lam hbS) (hb.2.2.mono hle)
  exact .after (Typing.run_checkKind (hkinds ▸ hk) n)
    (.after (Typing.run_normalForm.mpr hrun) (hbody.bind _))

theorem app_function (h : EndsInFault K Γ f) : EndsInFault K Γ (.app f t) := by
  obtain ⟨d, h⟩ := h
  refine ⟨d, fun fuel hfuel kinds types n hkinds htypes hb => ?_⟩
  exact (h fuel hfuel kinds types n hkinds htypes.left hb.1).bind _

theorem app_argument (hF : HasType K Γ f F) (hΓ : Γ.WellKinded K f) (h : EndsInFault K Γ t) :
    EndsInFault K Γ (.app f t) := by
  obtain ⟨d₁, h₁⟩ := hF.exists_inferType hΓ
  obtain ⟨d₂, h₂⟩ := h
  refine ⟨max d₁ d₂, fun fuel hfuel kinds types n hkinds htypes hb => ?_⟩
  obtain ⟨F', l, hrun, hle, _, _⟩ :=
    h₁ fuel (by omega) kinds types n hkinds htypes.agrees.left hb.1
  have harg := h₂ fuel (by omega) kinds types l hkinds (htypes.right.mono hle) (hb.2.mono hle)
  refine .after hrun ?_
  cases F' with
  | arrow E T => exact harg.bind _
  | _ => exact .throw _ l

/-- Both parts have types, but that of the function is no type of functions on the other. -/
theorem app_mismatch (hF : HasType K Γ f F) (hS : HasType K Γ t S)
    (hΓ : Γ.WellKinded K (.app f t)) (hne : ∀ T, F ≠ .arrow S T) :
    EndsInFault K Γ (.app f t) := by
  obtain ⟨d₁, h₁⟩ := hF.exists_inferType hΓ.left
  obtain ⟨d₂, h₂⟩ := hS.exists_inferType hΓ.right
  refine ⟨max d₁ d₂, fun fuel hfuel kinds types n hkinds htypes hb => ?_⟩
  obtain ⟨F', l, hrun₁, hle, _, rfl⟩ :=
    h₁ fuel (by omega) kinds types n hkinds htypes.agrees.left hb.1
  obtain ⟨S', l', hrun₂, _, _, rfl⟩ := h₂ fuel (by omega) kinds types l hkinds
    (htypes.agrees.right.mono hle) (hb.2.mono hle)
  refine .after hrun₁ ?_
  cases F' with
  | arrow E T =>
    have hSE : ¬ S'.alphaEq E := by
      rw [Ty.alphaEq_iff]
      intro h
      exact hne T.nameless (h ▸ rfl)
    refine .after hrun₂ ?_
    rw [if_neg hSE]
    exact .throw _ l'
  | _ => exact .throw _ l

theorem tyLam {a : TyName} {k : Kind} (h : EndsInFault (Function.update K a (some k)) Γ body) :
    EndsInFault K Γ (.tyLam a k body) := by
  obtain ⟨d, h⟩ := h
  refine ⟨d, fun fuel hfuel kinds types n hkinds htypes hb => ?_⟩
  have hbody := h fuel hfuel ((a, k) :: kinds) types n (by rw [lookup_cons_eq_update, hkinds])
    ⟨htypes.agrees, htypes.unknown⟩ hb.2
  exact hbody.bind _

theorem inst_term (h : EndsInFault K Γ t) : EndsInFault K Γ (.inst t type) := by
  obtain ⟨d, h⟩ := h
  refine ⟨d, fun fuel hfuel kinds types n hkinds htypes hb => ?_⟩
  exact (h fuel hfuel kinds types n hkinds ⟨htypes.agrees, htypes.unknown⟩ hb.1).bind _

/-- The term has a type, but none that can be instantiated with this one. -/
theorem inst_mismatch (hF : HasType K Γ t F) (hΓ : Γ.WellKinded K t)
    (hne : ∀ k B, F = .all k B → type.nameless.kind? (.ofNames K) ≠ some k) :
    EndsInFault K Γ (.inst t type) := by
  obtain ⟨d, h⟩ := hF.exists_inferType hΓ
  refine ⟨d, fun fuel hfuel kinds types n hkinds htypes hb => ?_⟩
  obtain ⟨F', l, hrun, _, _, rfl⟩ := h fuel hfuel kinds types n hkinds htypes.agrees hb.1
  refine .after hrun ?_
  cases F' with
  | all a k B => exact (Typing.Faults.checkKind (hkinds ▸ hne k _ rfl) l).bind _
  | _ => exact .throw _ l

theorem error (hk : type.nameless.kind? (.ofNames K) ≠ some .star) :
    EndsInFault K Γ (.error type) := by
  refine ⟨0, fun fuel _ kinds types n hkinds _ _ => ?_⟩
  exact (Typing.Faults.checkKind (hkinds ▸ hk) n).bind _

end Term.EndsInFault

/-- With enough fuel, inference finds the fault of every hygienic term that has no type. -/
theorem Term.exists_faults {K : NameKinds} {Γ : NameTypes} {t : Term}
    (hnone : ∀ T, ¬ HasType K Γ t T) (hΓ : Γ.WellKinded K t) {declared : Bindings Name Ty}
    (hh : t.Hygienic declared) (hd : Γ.DeclaredBy declared t) : t.EndsInFault K Γ := by
  induction t generalizing K Γ declared with
  | var x =>
    refine .var ?_
    by_contra hx
    obtain ⟨S, hS⟩ := Option.ne_none_iff_exists'.mp hx
    exact hnone S (.var hS)
  | lam x type body ih =>
    by_cases hk : type.nameless.kind? (.ofNames K) = some .star
    case neg => exact .lam_declared hk
    obtain ⟨S, hS⟩ := NamelessTy.exists_normalForm hk
    exact .lam_body hk hS (ih (fun T hT => hnone _ (.lam hk hS hT)) (hΓ.lam hk hS) hh (hd.lam hS))
  | app f t ihf iht =>
    -- the run fails at the first part without a type, or else when the parts are compared
    by_cases hf : ∃ F, HasType K Γ f F
    case neg => exact .app_function (ihf (fun F hF => hf ⟨F, hF⟩) hΓ.left hh.1 hd.left)
    obtain ⟨F, hF⟩ := hf
    by_cases ht : ∃ S, HasType K Γ t S
    case neg =>
      exact .app_argument hF hΓ.left (iht (fun S hS => ht ⟨S, hS⟩) hΓ.right hh.2 hd.right)
    obtain ⟨S, hS⟩ := ht
    exact .app_mismatch hF hS hΓ fun T hFT => hnone T (.app (hFT ▸ hF) hS)
  | tyLam a k body ih =>
    have hocc := hd.not_occurs hh
    exact .tyLam (ih (fun T hT => hnone _ (.tyLam hT hocc)) (hΓ.tyLam hocc) hh.2 hd)
  | inst t type ih =>
    by_cases ht : ∃ F, HasType K Γ t F
    case neg => exact .inst_term (ih (fun F hF => ht ⟨F, hF⟩) hΓ hh hd)
    obtain ⟨F, hF⟩ := ht
    refine .inst_mismatch hF hΓ ?_
    rintro k B rfl hk
    have hB := (NamelessTy.kind?_all.mp (hF.regular hΓ).2).1
    obtain ⟨T, hT⟩ := NamelessTy.exists_normalForm (NamelessTy.kind?_inst hB hk)
    exact hnone T (.inst hF hk hT)
  | const l => exact absurd (.const l) (hnone _)
  | error type =>
    refine .error fun hk => ?_
    obtain ⟨S, hS⟩ := NamelessTy.exists_normalForm hk
    exact hnone S (.error hk hS)

/-! ## Terms that differ in the names of binders -/

/-- A type that a closed term has is also the type of every hygienic term that is equal
to it up to bound names. -/
theorem HasClosedType.of_alphaEq {t u : Term} {T : NamelessTy} (hT : HasClosedType t T)
    (h : t.alphaEq u) (hu : u.Hygienic []) : HasClosedType u T := by
  have hnameless := HasType.nameless hT (.empty t)
  rw [Term.alphaEq_iff.mp h] at hnameless
  obtain ⟨U, hU, hu⟩ := hnameless.named (.empty u) hu nofun
  rw [NamelessTy.rename_id, NamelessTy.rename_id] at hU
  exact hU ▸ hu

theorem Term.alphaEq_symm {t u : Term} (h : t.alphaEq u) : u.alphaEq t :=
  alphaEq_iff.mpr (alphaEq_iff.mp h).symm

/-- Two runs of inference agree if both find a fault, or both return types that are equal
up to bound names. -/
inductive Typing.SameVerdict : Except TypeError Ty → Except TypeError Ty → Prop
  | faults (f g : TypeFault) : SameVerdict (.error (.fault f)) (.error (.fault g))
  | types {T U : Ty} (h : T.alphaEq U) : SameVerdict (.ok T) (.ok U)

/-- Inference does not see how the binders of a hygienic term are named: with enough fuel,
on terms that are equal up to bound names it finds a fault in both, or types that are
equal up to bound names. -/
theorem Term.binder_names_do_not_matter {t u : Term} {n : Int} (h : t.alphaEq u)
    (ht : t.Below n) (hu : u.Below n) (hht : t.Hygienic []) (hhu : u.Hygienic []) :
    ∃ d, ∀ fuel ≥ d, ∀ p ≥ n, ∀ q ≥ n,
      Typing.SameVerdict ((t.inferType fuel .default [] []).run p).1
        ((u.inferType fuel .default [] []).run q).1 := by
  by_cases hT : ∃ T, HasClosedType t T
  case pos =>
    obtain ⟨T, hT⟩ := hT
    obtain ⟨d₁, h₁⟩ := HasType.exists_inferType hT (.empty t)
    obtain ⟨d₂, h₂⟩ := HasType.exists_inferType (hT.of_alphaEq h hhu) (.empty u)
    refine ⟨max d₁ d₂, fun fuel hfuel p hp q hq => ?_⟩
    obtain ⟨T', _, hrunT, _, _, hnT⟩ := h₁ fuel (by omega) [] [] p rfl nofun (ht.mono hp)
    obtain ⟨U', _, hrunU, _, _, hnU⟩ := h₂ fuel (by omega) [] [] q rfl nofun (hu.mono hq)
    rw [hrunT, hrunU]
    exact .types (Ty.alphaEq_iff.mpr (hnT.trans hnU.symm))
  case neg =>
    have hT' : ∀ T, ¬ HasClosedType u T :=
      fun T hU => hT ⟨T, hU.of_alphaEq (Term.alphaEq_symm h) hht⟩
    obtain ⟨d₁, h₁⟩ := Term.exists_faults (fun T hU => hT ⟨T, hU⟩) (.empty t) hht nofun
    obtain ⟨d₂, h₂⟩ := Term.exists_faults hT' (.empty u) hhu nofun
    refine ⟨max d₁ d₂, fun fuel hfuel p hp q hq => ?_⟩
    obtain ⟨f, _, hrunT⟩ := h₁ fuel (by omega) [] [] p rfl (.empty p t) (ht.mono hp)
    obtain ⟨g, _, hrunU⟩ := h₂ fuel (by omega) [] [] q rfl (.empty q u) (hu.mono hq)
    rw [hrunT, hrunU]
    exact .faults f g

theorem Term.binder_names_do_not_matter_to_a_passed_variable :
    let a : TyName := ⟨"a", 0⟩
    let b : TyName := ⟨"b", 1⟩
    let x : Name := ⟨"x", 2⟩
    let y : Name := ⟨"y", 3⟩
    let t : Term := .tyLam a .star (.lam x (.var a) (.tyLam b .star (.var x)))
    let u : Term := .tyLam b .star (.lam y (.var b) (.tyLam a .star (.var y)))
    t.alphaEq u ∧ t.Below 4 ∧ u.Below 4 ∧ t.Hygienic [] ∧ u.Hygienic [] ∧
      ∃ d, ∀ fuel ≥ d, ∀ p ≥ 4, ∀ q ≥ 4,
        Typing.SameVerdict ((t.inferType fuel .default [] []).run p).1
          ((u.inferType fuel .default [] []).run q).1 := by
  intro a b x y t u
  have hα : t.alphaEq u := by decide
  have ht : t.Below 4 := by simp [t, a, b, x, Term.Below, Ty.Below]
  have hu : u.Below 4 := by simp [u, a, b, y, Term.Below, Ty.Below]
  have hht : t.Hygienic [] := by simp [t, a, b, x, Term.Hygienic, Term.free, Ty.free]
  have hhu : u.Hygienic [] := by simp [u, a, b, y, Term.Hygienic, Term.free, Ty.free]
  exact ⟨hα, ht, hu, hht, hhu, Term.binder_names_do_not_matter hα ht hu hht hhu⟩

/-- A type abstraction that takes the name of the type of `x` captures it: the type of the
first term says that its result has the type of the inner binder, which is not so. -/
theorem Term.a_repeated_type_name_changes_the_type :
    let a : TyName := ⟨"a", 0⟩
    let b : TyName := ⟨"b", 1⟩
    let x : Name := ⟨"x", 2⟩
    let t : Term := .tyLam a .star (.lam x (.var a) (.tyLam a .star (.var x)))
    let u : Term := .tyLam a .star (.lam x (.var a) (.tyLam b .star (.var x)))
    t.alphaEq u ∧ t.Below 3 ∧ u.Below 3 ∧ (t.free = [] ∧ t.freeTypes = []) ∧
      (u.free = [] ∧ u.freeTypes = []) ∧ u.Hygienic [] ∧
        ¬ ∃ d, ∀ fuel ≥ d, ∀ p ≥ 3, ∀ q ≥ 3,
          Typing.SameVerdict ((t.inferType fuel .default [] []).run p).1
            ((u.inferType fuel .default [] []).run q).1 := by
  intro a b x t u
  have ht : t.Below 3 := by simp [t, a, x, Term.Below, Ty.Below]
  have hu : u.Below 3 := by simp [u, a, b, x, Term.Below, Ty.Below]
  have hhu : u.Hygienic [] := by simp [u, a, b, x, Term.Hygienic, Term.free, Ty.free]
  refine ⟨by decide, ht, hu, by decide, by decide, hhu, ?_⟩
  rintro ⟨d, h⟩
  have hfuel := h (d + 1) (by omega) 3 (by omega) 3 (by omega)
  have hrunT : (t.inferType (d + 1) .default [] []).run 3 =
      (.ok (.all a .star (.arrow (.var a) (.all a .star (.var a)))), 3) := by rfl
  have hrunU : (u.inferType (d + 1) .default [] []).run 3 =
      (.ok (.all a .star (.arrow (.var a) (.all b .star (.var a)))), 3) := by rfl
  rw [hrunT, hrunU] at hfuel
  cases hfuel with
  | types hα => exact absurd hα (by decide)

end FomegaLab
