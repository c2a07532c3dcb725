-- Well-typed programs end. Nothing that could be counted gets smaller: types are put for
-- variables of types that contain them. Instead, every term of a type computes what the
-- type means, by induction on its typing, and so the machine with environments ends on
-- it. The machine that substitutes takes the same steps.
import FomegaLab.Proofs.Machine.LockStep
import FomegaLab.Proofs.Machine.Meaning
import FomegaLab.Proofs.Machine.TypeSafety

namespace FomegaLab

open NamelessTy (NormalForm)

/-! ## Terms compute what their types mean -/

/-- The values in scope of the free variables of a term are what their types mean. -/
def NameTypes.Holds (Γ : NameTypes) (ρ : Meanings) (env : CEK.Env) (t : Term) : Prop :=
  ∀ x ∈ t.free, ∀ S, Γ x = some S → ∃ v, env.find? x = some v ∧ S.meaning ρ .star v

namespace NameTypes.Holds

variable {Γ : NameTypes} {ρ : Meanings} {env : CEK.Env}

theorem empty (ρ : Meanings) (env : CEK.Env) (t : Term) :
    NameTypes.Holds (fun _ => none) ρ env t := nofun

theorem left {f t : Term} (h : Γ.Holds ρ env (.app f t)) : Γ.Holds ρ env f :=
  fun x hx => h x (List.mem_append_left _ hx)

theorem right {f t : Term} (h : Γ.Holds ρ env (.app f t)) : Γ.Holds ρ env t :=
  fun x hx => h x (List.mem_append_right _ hx)

theorem lam {x : Name} {declared : Ty} {body : Term} (h : Γ.Holds ρ env (.lam x declared body))
    {S : NamelessTy} {w : CEK.Value} (hw : S.meaning ρ .star w) :
    NameTypes.Holds (Function.update Γ x (some S)) ρ (.bind x w env) body := by
  intro y hy U hU
  by_cases hyx : y = x
  · rw [hyx, Function.update_self] at hU
    cases hU
    exact ⟨w, by rw [CEK.Env.find?, if_pos hyx.symm], hw⟩
  · rw [Function.update_of_ne hyx] at hU
    rw [CEK.Env.find?, if_neg (Ne.symm hyx)]
    exact h y (Term.mem_free_lam hy hyx) U hU

/-- A name that occurs in no type in scope may mean anything. -/
theorem tyLam {a : TyName} {k : Kind} {body : Term} (h : Γ.Holds ρ env (.tyLam a k body))
    (ha : ∀ x ∈ body.free, ∀ S, Γ x = some S → ¬ S.Occurs (.free a)) (X : k.Meaning) :
    Γ.Holds (ρ.push X ∘ Ref.bind a) env body := by
  intro x hx S hS
  obtain ⟨v, hv, hmeaning⟩ := h x hx S hS
  have hsame : S.meaning (ρ.push X ∘ Ref.bind a) .star = S.meaning ρ .star := by
    refine NamelessTy.meaning_congr (fun r hr => ?_) .star
    have hra : r ≠ .free a := fun hra => ha x hx S hS (hra ▸ hr)
    rw [Function.comp_apply, Ref.bind_of_ne hra, Meanings.push_succ]
  exact ⟨v, hv, hsame ▸ hmeaning⟩

end NameTypes.Holds

/-- A term computes what its type means, in any scope of types that mean something and of
values that are what their types mean. -/
theorem HasType.computes {K : NameKinds} {Γ : NameTypes} {t : Term} {T : NamelessTy}
    (h : HasType K Γ t T) (hΓ : Γ.WellKinded K t) {ρ : Meanings} (hρ : ρ.kinds = .ofNames K)
    {env : CEK.Env} (henv : Γ.Holds ρ env t) :
    CEK.Computes (T.meaning ρ .star) t.erase env := by
  induction h generalizing ρ env with
  | @var K Γ x T hx =>
    obtain ⟨v, hv, hmeaning⟩ := henv x (List.mem_singleton_self x) T hx
    exact CEK.computes_var hv hmeaning
  | lam hk hS _ ih =>
    exact CEK.computes_lam fun w hw => ih (hΓ.lam hk hS) hρ (henv.lam hw)
  | app _ _ ihf iha =>
    exact CEK.computes_app (ihf hΓ.left hρ henv.left) (iha hΓ.right hρ henv.right)
  | @tyLam K Γ a k body T _ ha ih =>
    -- the suspension has to be good for whatever the name may mean
    refine CEK.computes_delay fun X => ?_
    rw [NamelessTy.abstract, NamelessTy.meaning_rename]
    refine ih (hΓ.tyLam ha) ?_ (henv.tyLam ha X)
    rw [← KindScope.push_comp_bind, ← hρ, ← Meanings.kinds_push]
    rfl
  | @inst K Γ t type k B T ht hk hT ih =>
    have hB := (NamelessTy.kind?_all.mp (ht.regular hΓ).2).1
    rw [← hρ] at hB hk
    -- now the binder means what the argument means, and the instance means its normal form
    have hforced := CEK.computes_force (ih hΓ hρ henv) (type.nameless.meaning ρ k)
    rw [← NamelessTy.meaning_inst hB hk,
      hT.steps.meaning (NamelessTy.kind?_inst hB hk)] at hforced
    exact hforced
  | const l => exact CEK.computes_const ⟨l, rfl, rfl⟩
  | error => exact CEK.computes_error

/-- The machine ends on every program with a type. -/
theorem CEK.ends_of_type {t : Term} {T : NamelessTy} (h : HasClosedType t T) :
    Ends (step (start t.erase)) := by
  have hkinds : Meanings.kinds (fun _ => none) = .ofNames fun _ => none := by
    funext r
    cases r <;> rfl
  exact HasType.computes h (.empty t) hkinds (.empty _ .empty t) [] fun v _ => .value v

/-! ## Enough budget -/

/-- How a run ends that the machine did not cut short. -/
def CEK.Ended (r : Except (Fault UTerm) UTerm) : Prop :=
  (∃ u, r = .ok u) ∨ r = .error ⟨.evaluatedError, some .error⟩

/-- A machine that ends does so within some number of steps. -/
theorem CEK.Ends.exists_steps {o : Outcome} (h : Ends o) :
    ∃ bound, ∀ steps ≥ bound, ∀ exhausted s, step s = o → Ended (run exhausted steps s) := by
  induction h with
  | value v =>
    refine ⟨1, fun steps hsteps exhausted s hs => .inl ⟨v.discharge, ?_⟩⟩
    obtain ⟨steps, rfl⟩ := Nat.exists_eq_add_of_le' hsteps
    rw [run, hs]
  | error =>
    refine ⟨1, fun steps hsteps exhausted s hs => .inr ?_⟩
    obtain ⟨steps, rfl⟩ := Nat.exists_eq_add_of_le' hsteps
    rw [run, hs]
  | @next s' _ ih =>
    obtain ⟨bound, hbound⟩ := ih
    refine ⟨bound + 1, fun steps hsteps exhausted s hs => ?_⟩
    obtain ⟨steps, rfl⟩ := Nat.exists_eq_add_of_le' hsteps
    rw [← Nat.add_assoc, run, hs]
    exact hbound (steps + bound) (by omega) exhausted s' rfl

namespace CK

/-- How the evaluation of a program ends that is not cut short: with a value, or because
the program evaluated an error. -/
def Ended (r : Except (Fault Term) Term) : Prop :=
  (∃ v, v.IsValue ∧ r = .ok v) ∨ ∃ type, r = .error ⟨.evaluatedError, some (.error type)⟩

/-- A run ends like the run of the other machine. -/
theorem ended_of_sameEnd {r : Except (Fault Term) Term} {q : Except (Fault UTerm) UTerm}
    (h : LockStep.SameEnd r q) (hq : CEK.Ended q) :
    (∃ v, r = .ok v) ∨ ∃ type, r = .error ⟨.evaluatedError, some (.error type)⟩ := by
  obtain ⟨u, rfl⟩ | rfl := hq
  · cases r with
    | ok v => exact .inl ⟨v, rfl⟩
    | error f => exact h.elim
  · cases r with
    | ok v => exact h.elim
    | error f =>
      obtain ⟨hreason, -, t, u, ht, hu, hα⟩ := h
      obtain ⟨reason, cause⟩ := f
      cases hu
      cases ht
      cases hreason
      cases t with
      | error type => exact .inr ⟨type, rfl⟩
      | _ => cases hα

/-- Well-typed programs end: every budget from some bound on is enough, from every supply
of uniques, for a value or for the error that the program evaluates. -/
theorem a_typed_program_ends {t : Term} {T : Ty} {fuel : Nat} {n m : Int}
    (hbelow : t.Below n) (hapart : t.TyLamsApart [])
    (h : (t.inferType fuel .default [] []).run n = (.ok T, m)) :
    ∃ bound, ∀ budget ≥ bound, ∀ supply, Ended (evaluate budget t supply).1 := by
  obtain ⟨_, _, htyped⟩ := Term.inferType_sound (.empty n) hbelow hapart h
  obtain ⟨bound, hbound⟩ := (CEK.ends_of_type htyped).exists_steps
  refine ⟨(bound : Int), fun budget hbudget supply => ?_⟩
  have hexhausted : LockStep.SameFault ⟨.outOfBudget .ck budget, some t⟩
      ⟨.outOfBudget .cek budget, some t.erase⟩ := ⟨.outOfBudget budget, t, t.erase, rfl, rfl, rfl⟩
  have hsame := LockStep.run_related hexhausted budget.toNat
    (LockStep.start_related (HasClosedType.free_eq_nil htyped)) supply
  have hended := hbound budget.toNat (by omega) ⟨.outOfBudget .cek budget, some t.erase⟩ _ rfl
  have htypedEnd := evaluate_typed ⟨htyped, hbelow⟩ budget supply
  obtain ⟨v, hv⟩ | hf := ended_of_sameEnd hsame hended
  · rw [evaluate, hv] at htypedEnd
    exact .inl ⟨v, htypedEnd.1, hv⟩
  · exact .inr hf

/-- The identity at its own type, called with itself: its type is put for a variable of it. -/
theorem a_typed_program_ends_at_its_own_type :
    let a : TyName := ⟨"a", 0⟩
    let x : Name := ⟨"x", 1⟩
    let identity : Term := .tyLam a .star (.lam x (.var a) (.var x))
    let type : Ty := .all a .star (.arrow (.var a) (.var a))
    let t : Term := .app (.inst identity type) identity
    t.Below 2 ∧ t.TyLamsApart [] ∧ (t.inferType 0 .default [] []).run 2 = (.ok type, 2) ∧
      ∃ bound, ∀ budget ≥ bound, ∀ supply, Ended (evaluate budget t supply).1 := by
  intro a x identity type t
  have hbelow : t.Below 2 := by simp [t, type, identity, a, x, Term.Below, Ty.Below]
  have hapart : t.TyLamsApart [] := by simp [t, identity, Term.TyLamsApart]
  have hinfer : (t.inferType 0 .default [] []).run 2 = (.ok type, 2) := by rfl
  exact ⟨hbelow, hapart, hinfer, a_typed_program_ends hbelow hapart hinfer⟩

end CK

end FomegaLab
