-- Type safety of the CK machine. The focus and the frames of a well-typed program
-- stay closed and fit together, so the machine always finds the value that it
-- needs. Only a user fault can end the program, and a value that it comes to has
-- the type of the program.
--
-- Evaluation nests binders of one name, so the naming condition on programs is not
-- kept. What is kept is the typing judgement itself, which asks that condition only
-- of the variables that are free under a binder, and closed terms have none.
import FomegaLab.Machine.CK
import FomegaLab.Proofs.Typing.Substitution

namespace FomegaLab

open NamelessTy (NormalForm)

/-- The terms that the machine does not evaluate further. -/
def Term.IsValue : Term → Prop
  | .lam _ _ _ => True
  | .tyLam _ _ _ => True
  | .const _ => True
  | _ => False

namespace CK

/-- A closed term of type `T` whose uniques are below `n`. -/
structure TypedTerm (n : Int) (t : Term) (T : NamelessTy) : Prop where
  typed : HasClosedType t T
  below : t.Below n

/-- A stack that takes a value of one type to a value of another. -/
inductive TypedStack (n : Int) : List Frame → NamelessTy → NamelessTy → Prop
  | nil (T : NamelessTy) : TypedStack n [] T T
  | awaitArgument {argument : Term} {stack : List Frame} {S T U : NamelessTy}
      (h : TypedTerm n argument S) (hs : TypedStack n stack T U) :
      TypedStack n (.awaitArgument argument :: stack) (.arrow S T) U
  | awaitFunction {function : Term} {stack : List Frame} {S T U : NamelessTy}
      (h : TypedTerm n function (.arrow S T)) (hv : function.IsValue)
      (hs : TypedStack n stack T U) :
      TypedStack n (.awaitFunction function :: stack) S U
  | instantiate {type : Ty} {stack : List Frame} {k : Kind} {B T U : NamelessTy}
      (hk : type.nameless.kind? (.ofNames fun _ => none) = some k) (hb : type.Below n)
      (hT : NormalForm (B.inst type.nameless) T) (hs : TypedStack n stack T U) :
      TypedStack n (.instantiate type :: stack) (.all k B) U

/-- A state of a program of type `T`. -/
structure TypedState (n : Int) (s : State) (T : NamelessTy) : Prop where
  intro ::
  exists_type : ∃ S, TypedTerm n s.focus S ∧ TypedStack n s.stack S T

/-- What a step of a program of type `T` may lead to. -/
def TypedOutcome (n : Int) (T : NamelessTy) : Outcome → Prop
  | .next s => TypedState n s T
  | .value v => v.IsValue ∧ TypedTerm n v T
  | .fault f => f.reason.blame = .user

variable {n : Int}

/-- A call of a function puts its argument where the parameter was. -/
theorem call_typed {x : Name} {declared : Ty} {body v : Term} {S T : NamelessTy}
    (hf : TypedTerm n (.lam x declared body) (.arrow S T)) (hv : TypedTerm n v S) (m : Int) :
    TypedTerm n (body.subst x v m).1 T := by
  rw [Term.subst_eq_replace hv.typed.free_eq_nil hv.typed.freeTypes_eq_nil]
  cases hf.typed with
  | lam _ _ hbody => exact ⟨hbody.replace rfl hv.typed, hf.below.2.2.replace x hv.below⟩

/-- An instance of a type abstraction has the normal form of the instantiated type. -/
theorem instance_typed {a : TyName} {k : Kind} {body : Term} {type : Ty} {B T : NamelessTy}
    (hf : TypedTerm n (.tyLam a k body) (.all k B))
    (hk : type.nameless.kind? (.ofNames fun _ => none) = some k) (hb : type.Below n)
    (hT : NormalForm (B.inst type.nameless) T) (m : Int) :
    TypedTerm n (body.substType a type m).1 T := by
  have hclosed := Ty.free_eq_nil_of_kind? hk
  rw [Term.substType_eq_replaceType hclosed]
  cases hf.typed with
  | tyLam hbody ha =>
    refine ⟨?_, hf.below.2.replaceType a hb⟩
    have hreplaces : Replaces type a (Function.update (fun _ => none) a (some k))
        fun _ => none := by
      refine ⟨hclosed, fun j hj => ?_, fun b hba => ?_⟩
      · rw [Function.update_self] at hj
        rw [hk, hj]
      · rw [Function.update_of_ne hba]
    obtain ⟨T', hT', hn⟩ := hbody.replaceType hreplaces (.empty body)
      (Δ := fun _ => none) fun _ _ _ h => by cases h
    rw [NamelessTy.abstract_inst] at hT
    rw [hT.unique hn]
    exact hT'

/-- A value of the type that the innermost frame waits for never stops the machine. -/
theorem giveBack_typed {v : Term} {stack : List Frame} {S T : NamelessTy} (hv : v.IsValue)
    (ht : TypedTerm n v S) (hs : TypedStack n stack S T) (m : Int) :
    TypedOutcome n T (giveBack v stack m).1 := by
  cases hs with
  | nil => exact ⟨hv, ht⟩
  | awaitArgument h hs => exact ⟨_, h, .awaitFunction ht hv hs⟩
  | @awaitFunction function _ _ _ _ h hfun hs =>
    cases function with
    | lam x declared body => exact ⟨_, call_typed h ht m, hs⟩
    | tyLam => cases h.typed
    | const => cases h.typed
    | _ => exact hfun.elim
  | instantiate hk hb hT hs =>
    cases v with
    | tyLam a k body =>
      cases ht.typed
      exact ⟨_, instance_typed ht hk hb hT m, hs⟩
    | lam => cases ht.typed
    | const => cases ht.typed
    | _ => exact hv.elim

theorem step_typed {s : State} {T : NamelessTy} (h : TypedState n s T) (m : Int) :
    TypedOutcome n T (step s m).1 := by
  obtain ⟨focus, stack⟩ := s
  obtain ⟨S, ht, hs⟩ := h
  cases focus with
  | var x => cases ht.typed with | var h => cases h
  | app function argument =>
    cases ht.typed with
    | app hf ha => exact ⟨_, ⟨hf, ht.below.1⟩, .awaitArgument ⟨ha, ht.below.2⟩ hs⟩
  | inst term type =>
    cases ht.typed with
    | inst hterm hk hT => exact ⟨_, ⟨hterm, ht.below.1⟩, .instantiate hk ht.below.2 hT hs⟩
  | error type => exact rfl
  | lam x declared body => exact giveBack_typed (v := .lam x declared body) trivial ht hs m
  | tyLam a k body => exact giveBack_typed (v := .tyLam a k body) trivial ht hs m
  | const l => exact giveBack_typed (v := .const l) trivial ht hs m

/-- What a run of a program of type `T` may end with. -/
def TypedEnd (n : Int) (T : NamelessTy) : Except (Fault Term) Term → Prop
  | .ok v => v.IsValue ∧ TypedTerm n v T
  | .error f => f.reason.blame = .user

theorem run_typed {exhausted : Fault Term} (hex : exhausted.reason.blame = .user) (steps : Nat)
    {s : State} {T : NamelessTy} (h : TypedState n s T) (m : Int) :
    TypedEnd n T (run exhausted steps s m).1 := by
  induction steps generalizing s m with
  | zero => exact hex
  | succ steps ih =>
    have hstep := step_typed h m
    simp only [run, Fresh.bind_apply]
    generalize step s m = out at hstep ⊢
    obtain ⟨outcome, m'⟩ := out
    cases outcome with
    | next s => exact ih hstep m'
    | value v => exact hstep
    | fault f => exact hstep

theorem evaluate_typed {t : Term} {T : NamelessTy} (h : TypedTerm n t T) (budget m : Int) :
    TypedEnd n T (evaluate budget t m).1 :=
  run_typed rfl _ ⟨T, h, .nil T⟩ m

/-- How a program of type `T` ends that went right: with a fault that is its own, or
with a value for which the same type is inferred. -/
def SafeEnd (n : Int) (T : Ty) : Except (Fault Term) Term → Prop
  | .error f => f.reason.blame = .user
  | .ok v => v.IsValue ∧ ∃ d, ∀ fuel ≥ d, ∀ k ≥ n, ∃ T' k',
      (v.inferType fuel .default [] []).run k = (.ok T', k') ∧ T'.alphaEq T = true

/-- Well-typed programs go right, at every budget and from every supply of uniques. A
program for which a type is inferred is closed. -/
theorem a_typed_program_goes_right {t : Term} {T : Ty} {fuel : Nat} {n m : Int}
    (hbelow : t.Below n) (hapart : t.TyLamsApart [])
    (h : (t.inferType fuel .default [] []).run n = (.ok T, m)) (budget supply : Int) :
    SafeEnd n T (evaluate budget t supply).1 := by
  obtain ⟨_, _, htyped⟩ := Term.inferType_sound (.empty n) hbelow hapart h
  have hend := evaluate_typed ⟨htyped, hbelow⟩ budget supply
  generalize (evaluate budget t supply).1 = out at hend
  cases out with
  | error f => exact hend
  | ok v =>
    obtain ⟨hvalue, hv, hvbelow⟩ := hend
    obtain ⟨d, hd⟩ := HasType.exists_inferType hv (.empty v)
    refine ⟨hvalue, d, ?_⟩
    intro fuel hfuel k hk
    obtain ⟨T', k', hrun, _, _, hname⟩ := hd fuel hfuel [] [] k rfl (fun _ _ _ h => by cases h)
      (hvbelow.mono hk)
    exact ⟨T', k', hrun, Ty.alphaEq_iff.mpr hname⟩

/-- An instance of the identity, called: a type and a value are substituted. -/
theorem a_called_instance_goes_right :
    let a : TyName := ⟨"a", 0⟩
    let x : Name := ⟨"x", 1⟩
    let unit : Term := .const ⟨.unit, none⟩
    let t : Term := .app (.inst (.tyLam a .star (.lam x (.var a) (.var x))) (.builtin .unit)) unit
    t.Below 2 ∧ t.TyLamsApart [] ∧
      (t.inferType 0 .default [] []).run 2 = (.ok (.builtin .unit), 2) ∧
      (evaluate 7 t 2).1 = .ok unit ∧ SafeEnd 2 (.builtin .unit) (evaluate 7 t 2).1 := by
  intro a x unit t
  have hbelow : t.Below 2 := by simp [t, a, x, unit, Term.Below, Ty.Below]
  have hapart : t.TyLamsApart [] := by simp [t, a, unit, Term.TyLamsApart]
  have hinfer : (t.inferType 0 .default [] []).run 2 = (.ok (.builtin .unit), 2) := by rfl
  exact ⟨hbelow, hapart, hinfer, by rfl, a_typed_program_goes_right hbelow hapart hinfer 7 2⟩

end CK

end FomegaLab
