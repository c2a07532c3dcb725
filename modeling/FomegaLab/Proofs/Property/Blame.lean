-- Who is blamed for what, with any two evaluators in the place of the machines. What stops
-- the naming of a program stops the law before an evaluator runs; an internal fault blames
-- the evaluator that had it; a user fault stands for an error term. So a counterexample is a
-- term that the checker refuses or a pair of results that differ, and nothing else.
import FomegaLab.Proofs.Conversion.Commutation
import FomegaLab.Proofs.Typing.Alpha

namespace FomegaLab

open NamelessTy (NormalForm)

/-! ## Checking a term at the normal form of a type -/

/-- Requires that a closed term has the normal form of `type`. -/
def Term.checkAtNormalForm (fuel : Nat) (t : Term) (type : Ty) : Typing Unit := do
  let type ← Typing.normalForm fuel type
  t.checkType fuel .default type

/-- A closed term has a type up to normalization. -/
def HasTypeUpToNormal (t : Term) (type : Ty) : Prop :=
  ∃ N, NormalForm type.nameless N ∧ HasClosedType t N

/-- An error term has the type that it is annotated with. -/
theorem hasTypeUpToNormal_error {T : Ty}
    (hk : T.nameless.kind? (.ofNames fun _ => none) = some .star) :
    HasTypeUpToNormal (.error T) T := by
  obtain ⟨N, hN⟩ := NamelessTy.exists_normalForm hk
  exact ⟨N, hN, .error hk hN⟩

/-- With enough fuel, the checker accepts a hygienic term that has the type and finds a fault
of any other. -/
theorem Term.exists_checkAtNormalForm {t : Term} {T : Ty} {n : Int}
    (hk : T.nameless.kind? (.ofNames fun _ => none) = some .star) (hb : T.Below n)
    (ht : t.Below n) (hh : t.Hygienic []) :
    ∃ d, ∀ fuel ≥ d,
      (HasTypeUpToNormal t T → ∃ m, (t.checkAtNormalForm fuel T).run n = (.ok (), m)) ∧
      (¬ HasTypeUpToNormal t T → (t.checkAtNormalForm fuel T).Faults n) := by
  obtain ⟨d, hd⟩ := Ty.exists_normalize hk
  by_cases htyped : ∃ U, HasClosedType t U
  case pos =>
    obtain ⟨U, hU⟩ := htyped
    obtain ⟨e, he⟩ := HasType.exists_inferType hU (.empty t)
    refine ⟨max d e, fun fuel hfuel => ?_⟩
    obtain ⟨N, l, hN, hle, hbN, hnormal⟩ := hd fuel (by omega) T n rfl hb
    obtain ⟨U', m, hU', _, _, rfl⟩ := he fuel (by omega) [] [] l rfl nofun (ht.mono hle)
    have hcompare : U'.alphaEq N ↔ HasTypeUpToNormal t T := by
      rw [Ty.alphaEq_iff]
      constructor
      · intro h
        exact ⟨N.nameless, hnormal, h ▸ hU⟩
      · rintro ⟨N', hN', hT⟩
        rw [hU.unique hT, hnormal.unique hN']
    rw [← hcompare]
    constructor
    · intro h
      refine ⟨m, Fresh.run_bind_ok (Typing.run_normalForm.mpr hN) (Fresh.run_bind_ok hU' ?_)⟩
      rw [if_pos h]
      rfl
    · intro h
      refine .after (Typing.run_normalForm.mpr hN) (.after hU' ?_)
      rw [if_neg h]
      exact .throw _ m
  case neg =>
    obtain ⟨e, he⟩ := Term.exists_faults (fun U hU => htyped ⟨U, hU⟩) (.empty t) hh nofun
    refine ⟨max d e, fun fuel hfuel => ⟨fun ⟨N, _, hN⟩ => absurd ⟨N, hN⟩ htyped, fun _ => ?_⟩⟩
    obtain ⟨N, l, hN, hle, _, _⟩ := hd fuel (by omega) T n rfl hb
    have hfaults := he fuel (by omega) [] [] l rfl (.empty l t) (ht.mono hle)
    exact .after (Typing.run_normalForm.mpr hN) (hfaults.bind _)

/-! ## Results of evaluators -/

/-- The term that a result of an evaluation stands for: the result itself, and `marker` for a
user fault. An internal fault stands for none. -/
inductive StandsFor {τ : Type} (marker : τ) : Except (Fault τ) τ → τ → Prop
  | term (t : τ) : StandsFor marker (.ok t) t
  | userFault {f : Fault τ} (h : f.reason.blame = .user) : StandsFor marker (.error f) marker

namespace Laws

/-- A handler puts `marker` in the place of a user fault and keeps an internal one. -/
structure Handles {τ : Type} (marker : τ) (handle : Fault τ → Except (Fault τ) τ) : Prop where
  user : ∀ f, f.reason.blame = .user → handle f = .ok marker
  internal : ∀ f, f.reason.blame = .internal → handle f = .error f

theorem handleError_handles (type : Ty) : Handles (.error type) (handleError type) := by
  constructor <;>
  · intro f hf
    rw [handleError, hf]

theorem handleUntypedError_handles : Handles .error handleUntypedError := by
  constructor <;>
  · intro f hf
    rw [handleUntypedError, hf]

namespace Handles

variable {τ : Type} {marker o : τ} {handle : Fault τ → Except (Fault τ) τ}
  {r : Except (Fault τ) τ} {f : Fault τ} {E : Fresh (Except (Fault τ) τ)} {n k : Int}

theorem run_outcome (h : Handles marker handle) (evaluator : Evaluator) (hE : E n = (r, k))
    (ho : StandsFor marker r o) :
    (do outcome evaluator handle (← E) : Check τ).run n = (.ok o, k) := by
  rw [Fresh.run_bind_of_ok (Fresh.run_lift_eq_ok.mpr hE)]
  cases ho with
  | term t => rfl
  | userFault hf =>
    rw [outcome, h.user _ hf]
    rfl

theorem run_outcome_of_internal (h : Handles marker handle) (evaluator : Evaluator)
    (hE : E n = (.error f, k)) (hf : f.reason.blame = .internal) :
    (do outcome evaluator handle (← E) : Check τ).run n =
      (.error (.failure (.evaluation evaluator f.reason)), k) := by
  rw [Fresh.run_bind_of_ok (Fresh.run_lift_eq_ok.mpr hE)]
  simp only [outcome, h.internal f hf, hf]
  rfl

end Handles

/-! ## The verdict of the checker -/

section Checks

variable {α : Type} {check : Typing α} {blame : TypeFault → Failure} {n m : Int}

theorem run_checked {a : α} (h : check.run n = (.ok a, m)) :
    (checked blame check).run n = (.ok a, m) := by
  rw [checked, Fresh.run_bind_of_ok (Fresh.run_lift_eq_ok.mpr h)]
  rfl

theorem run_checked_of_fault {f : TypeFault} (h : check.run n = (.error (.fault f), m)) :
    (checked blame check).run n = (.error (.failure (blame f)), m) := by
  rw [checked, Fresh.run_bind_of_ok (Fresh.run_lift_eq_ok.mpr h)]
  rfl

theorem run_checked_unfinished (h : check.run n = (.error .unfinished, m)) :
    (checked blame check).run n = (.error (.breakdown .unfinished), m) := by
  rw [checked, Fresh.run_bind_of_ok (Fresh.run_lift_eq_ok.mpr h)]
  rfl

/-- A law checks a term as the checker does, and says who is to blame for a fault. -/
theorem run_typeChecked (fuel : Nat) (blame : TypeFault → Failure) (t : Term) (T : Ty) (n : Int) :
    (typeChecked fuel blame t T).run n =
      (checked blame (t.checkAtNormalForm fuel T)).run n := by
  rw [typeChecked]
  cases h : (T.normalize fuel).run n with
  | mk out l =>
    cases out with
    | none =>
      rw [Fresh.run_bind_of_error (run_normalForm_unfinished h)]
      refine (run_checked_unfinished ?_).symm
      refine Fresh.run_bind_of_error ?_
      rw [Typing.normalForm, Fresh.run_bind_of_ok (Fresh.run_lift_eq_ok.mpr h)]
      rfl
    | some N =>
      rw [Fresh.run_bind_of_ok (run_normalForm h)]
      have hcheck : (t.checkAtNormalForm fuel T).run n = (t.checkType fuel .default N).run l :=
        Fresh.run_bind_of_ok (Typing.run_normalForm.mpr h)
      cases hout : (t.checkType fuel .default N).run l with
      | mk out m =>
        rw [hout] at hcheck
        cases out with
        | ok u => rw [run_checked hout, run_checked hcheck]
        | error e =>
          cases e with
          | fault f => rw [run_checked_of_fault hout, run_checked_of_fault hcheck]
          | unfinished => rw [run_checked_unfinished hout, run_checked_unfinished hcheck]

end Checks

/-! ## The laws of evaluation, step by step -/

section Programs

variable {fuel : Nat} {E₁ : TypedEvaluator} {E₂ : UntypedEvaluator} {type : PosTy}
  {term : PosTerm} {T : Ty} {t o : Term} {n m k : Int}

/-- A program that cannot be named, or that the checker refuses, stops both laws before an
evaluator runs. -/
theorem laws_of_no_program {e : PropertyError}
    (h : (namedProgram fuel type term).run n = (.error e, m)) :
    (typePreservation fuel E₁ type term).run n = (.error e, m) ∧
      (machinesAgree fuel E₁ E₂ type term).run n = (.error e, m) :=
  ⟨Fresh.run_bind_of_error h, Fresh.run_bind_of_error h⟩

theorem laws_of_internal {f : Fault Term}
    (h : (namedProgram fuel type term).run n = (.ok (T, t), m))
    (hE : E₁ t m = (.error f, k)) (hf : f.reason.blame = .internal) :
    let blamed := (.error (.failure (.evaluation .typed f.reason)), k)
    (typePreservation fuel E₁ type term).run n = blamed ∧
      (machinesAgree fuel E₁ E₂ type term).run n = blamed := by
  have hrun := (handleError_handles T).run_outcome_of_internal .typed hE hf
  rw [typePreservation, machinesAgree, Fresh.run_bind_of_ok h, Fresh.run_bind_of_ok h]
  exact ⟨Fresh.run_bind_of_error hrun, Fresh.run_bind_of_error hrun⟩

/-- Once there is a result, the law of preservation is what the checker says about it. -/
theorem run_typePreservation {r : Except (Fault Term) Term}
    (h : (namedProgram fuel type term).run n = (.ok (T, t), m)) (hE : E₁ t m = (r, k))
    (ho : StandsFor (.error T) r o) :
    (typePreservation fuel E₁ type term).run n =
      (checked (fun _ => .counterexample (.typePreservation type term t o))
        (o.checkAtNormalForm fuel T)).run k := by
  have hrun := (handleError_handles T).run_outcome .typed hE ho
  rw [typePreservation, Fresh.run_bind_of_ok h]
  exact (Fresh.run_bind_of_ok hrun).trans (run_typeChecked fuel _ o T k)

theorem run_machinesAgree {r : Except (Fault Term) Term} {r' : Except (Fault UTerm) UTerm}
    {o' : UTerm} {l : Int} (h : (namedProgram fuel type term).run n = (.ok (T, t), m))
    (hE₁ : E₁ t m = (r, k)) (ho : StandsFor (.error T) r o) (hE₂ : E₂ t.erase k = (r', l))
    (ho' : StandsFor .error r' o') :
    (machinesAgree fuel E₁ E₂ type term).run n =
      (if o.erase.alphaEq o' then .ok ()
        else .error (.failure (.counterexample
          (.evaluation type term [("untyped CK", o.erase), ("untyped CEK", o')]))), l) := by
  have hrun := (handleError_handles T).run_outcome .typed hE₁ ho
  have hrun' := handleUntypedError_handles.run_outcome .untyped hE₂ ho'
  rw [machinesAgree, Fresh.run_bind_of_ok h]
  refine (Fresh.run_bind_of_ok hrun).trans ((Fresh.run_bind_of_ok hrun').trans ?_)
  split_ifs <;> rfl

theorem machinesAgree_of_internal {r : Except (Fault Term) Term} {f : Fault UTerm} {l : Int}
    (h : (namedProgram fuel type term).run n = (.ok (T, t), m)) (hE₁ : E₁ t m = (r, k))
    (ho : StandsFor (.error T) r o) (hE₂ : E₂ t.erase k = (.error f, l))
    (hf : f.reason.blame = .internal) :
    (machinesAgree fuel E₁ E₂ type term).run n =
      (.error (.failure (.evaluation .untyped f.reason)), l) := by
  have hrun := (handleError_handles T).run_outcome .typed hE₁ ho
  have hrun' := handleUntypedError_handles.run_outcome_of_internal .untyped hE₂ hf
  rw [machinesAgree, Fresh.run_bind_of_ok h]
  exact (Fresh.run_bind_of_ok hrun).trans (Fresh.run_bind_of_error hrun')

theorem kind?_of_namedProgram (h : (namedProgram fuel type term).run n = (.ok (T, t), m)) :
    T.nameless.kind? (.ofNames fun _ => none) = some .star := by
  simp only [namedProgram, namedType, Fresh.run_bind_eq_ok, Fresh.run_pure_eq_ok] at h
  obtain ⟨_, _, ⟨T', _, _, u, _, hcheck, rfl, _⟩, _, _, _, _, _, _, heq, _⟩ := h
  cases heq
  have hkind : T.checkKind [] .star = .ok () := by
    unfold kindChecked at hcheck
    split at hcheck
    · assumption
    · exact absurd hcheck Fresh.run_throw_ne_ok
  exact Ty.checkKind_eq_ok.mp hkind

/-- With enough fuel, the law of preservation decides whether the result has the type. -/
theorem exists_typePreservation {r : Except (Fault Term) Term} (hE : E₁ t m = (r, k))
    (ho : StandsFor (.error T) r o) (hT : T.Below k) (hb : o.Below k) (hh : o.Hygienic []) :
    ∃ d, ∀ fuel ≥ d, (namedProgram fuel type term).run n = (.ok (T, t), m) →
      ∃ l, (HasTypeUpToNormal o T → (typePreservation fuel E₁ type term).run n = (.ok (), l)) ∧
        (¬ HasTypeUpToNormal o T → (typePreservation fuel E₁ type term).run n =
          (.error (.failure (.counterexample (.typePreservation type term t o))), l)) := by
  by_cases hk : T.nameless.kind? (.ofNames fun _ => none) = some .star
  case neg => exact ⟨0, fun fuel _ h => absurd (kind?_of_namedProgram h) hk⟩
  obtain ⟨d, hd⟩ := Term.exists_checkAtNormalForm hk hT hb hh
  refine ⟨d, fun fuel hfuel h => ?_⟩
  obtain ⟨haccepts, hfaults⟩ := hd fuel hfuel
  rw [run_typePreservation h hE ho]
  by_cases hty : HasTypeUpToNormal o T
  · obtain ⟨l, hl⟩ := haccepts hty
    exact ⟨l, fun _ => run_checked hl, fun hn => absurd hty hn⟩
  · obtain ⟨f, l, hl⟩ := hfaults hty
    exact ⟨l, fun hp => absurd hp hty, fun _ => run_checked_of_fault hl⟩

end Programs

end Laws

/-- Whatever the evaluators are, only a disagreement becomes a counterexample. What stops the
naming of a program is what both laws end in. An internal fault of an evaluator blames this
evaluator, that of typed terms first. With a term for each result, which for a user fault is
an error term, the law of preservation goes by what the checker says about the typed one,
and the law of agreement by whether the two are equal after erasure. With enough fuel,
what the checker says about a hygienic term is whether it has the type. -/
theorem only_a_disagreement_is_a_counterexample (E₁ : TypedEvaluator) (E₂ : UntypedEvaluator)
    (type : PosTy) (term : PosTerm) (n : Int) :
    let program fuel := (Laws.namedProgram fuel type term).run n
    let preservation fuel := (Laws.typePreservation fuel E₁ type term).run n
    let agreement fuel := (Laws.machinesAgree fuel E₁ E₂ type term).run n
    (∀ fuel e m, program fuel = (.error e, m) →
      preservation fuel = (.error e, m) ∧ agreement fuel = (.error e, m)) ∧
    (∀ fuel T t m, program fuel = (.ok (T, t), m) →
      (∀ f k, E₁ t m = (.error f, k) → f.reason.blame = .internal →
        preservation fuel = (.error (.failure (.evaluation .typed f.reason)), k) ∧
          agreement fuel = (.error (.failure (.evaluation .typed f.reason)), k)) ∧
      ∀ r k o, E₁ t m = (r, k) → StandsFor (.error T) r o →
        (∀ l, (o.checkAtNormalForm fuel T).run k = (.ok (), l) →
          preservation fuel = (.ok (), l)) ∧
        (∀ f l, (o.checkAtNormalForm fuel T).run k = (.error (.fault f), l) →
          preservation fuel =
            (.error (.failure (.counterexample (.typePreservation type term t o))), l)) ∧
        (∀ l, (o.checkAtNormalForm fuel T).run k = (.error .unfinished, l) →
          preservation fuel = (.error (.breakdown .unfinished), l)) ∧
        (∀ f l, E₂ t.erase k = (.error f, l) → f.reason.blame = .internal →
          agreement fuel = (.error (.failure (.evaluation .untyped f.reason)), l)) ∧
        ∀ r' l o', E₂ t.erase k = (r', l) → StandsFor .error r' o' →
          agreement fuel =
            (if o.erase.alphaEq o' then .ok ()
              else .error (.failure (.counterexample
                (.evaluation type term [("untyped CK", o.erase), ("untyped CEK", o')]))), l)) ∧
    (∀ T t m r k o, E₁ t m = (r, k) → StandsFor (.error T) r o → T.Below k → o.Below k →
      o.Hygienic [] → ∃ d, ∀ fuel ≥ d, program fuel = (.ok (T, t), m) →
        ∃ l, (HasTypeUpToNormal o T → preservation fuel = (.ok (), l)) ∧
          (¬ HasTypeUpToNormal o T → preservation fuel =
            (.error (.failure (.counterexample (.typePreservation type term t o))), l))) ∧
    (∀ T t m f k, E₁ t m = (.error f, k) → f.reason.blame = .user → T.Below k →
      ∃ d, ∀ fuel ≥ d, program fuel = (.ok (T, t), m) → ∃ l, preservation fuel = (.ok (), l)) ∧
    Evaluator.typed.label = "CK" ∧ Evaluator.untyped.label = "UCEK" := by
  intro program preservation agreement
  refine ⟨fun fuel e m => Laws.laws_of_no_program, fun fuel T t m hprogram => ⟨?_, ?_⟩, ?_, ?_,
    rfl, rfl⟩
  · intro f k hE hf
    exact Laws.laws_of_internal hprogram hE hf
  · intro r k o hE₁ ho
    have hpreservation : preservation fuel = _ := Laws.run_typePreservation hprogram hE₁ ho
    refine ⟨?_, ?_, ?_, ?_, ?_⟩
    · intro l hcheck
      rw [hpreservation, Laws.run_checked hcheck]
    · intro f l hcheck
      rw [hpreservation, Laws.run_checked_of_fault hcheck]
    · intro l hcheck
      rw [hpreservation, Laws.run_checked_unfinished hcheck]
    · intro f l hE₂ hf
      exact Laws.machinesAgree_of_internal hprogram hE₁ ho hE₂ hf
    · intro r' l o' hE₂ ho'
      exact Laws.run_machinesAgree hprogram hE₁ ho hE₂ ho'
  · intro T t m r k o hE ho hT hb hh
    exact Laws.exists_typePreservation hE ho hT hb hh
  · intro T t m f k hE hf hT
    obtain ⟨d, hd⟩ := Laws.exists_typePreservation hE (.userFault hf) hT hT trivial
    refine ⟨d, fun fuel hfuel hprogram => ?_⟩
    obtain ⟨l, hl, _⟩ := hd fuel hfuel hprogram
    exact ⟨l, hl (hasTypeUpToNormal_error (Laws.kind?_of_namedProgram hprogram))⟩

/-- A machine that answers `false` keeps the type of `true`, and only the law of agreement
finds it out. One that answers with the unit value does not keep it. A machine that gives up
blames itself. -/
theorem only_a_disagreement_is_a_counterexample_to_wrong_machines :
    let type : PosTy := .builtin .bool
    let yes : Literal := ⟨.bool, some true⟩
    let no : Literal := ⟨.bool, some false⟩
    let negating : TypedEvaluator := fun _ => pure (.ok (.const no))
    let forgetting : TypedEvaluator := fun _ => pure (.ok (.const ⟨.unit, none⟩))
    let keeping : UntypedEvaluator := fun t => pure (.ok t)
    let failing : UntypedEvaluator := fun _ => pure (.error ⟨.forcedNonDelay, none⟩)
    (Laws.typePreservation 1 negating type (.const yes)).run 0 = (.ok (), 0) ∧
      (Laws.machinesAgree 1 negating keeping type (.const yes)).run 0 =
        (.error (.failure (.counterexample (.evaluation type (.const yes)
          [("untyped CK", .const no), ("untyped CEK", .const yes)]))), 0) ∧
      (Laws.machinesAgree 1 negating failing type (.const yes)).run 0 =
        (.error (.failure (.evaluation .untyped .forcedNonDelay)), 0) ∧
      (Laws.typePreservation 1 forgetting type (.const yes)).run 0 =
        (.error (.failure (.counterexample
          (.typePreservation type (.const yes) (.const yes) (.const ⟨.unit, none⟩)))), 0) := by
  intro type yes no negating forgetting keeping failing
  have hprogram : (Laws.namedProgram 1 type (.const yes)).run 0 =
      (.ok (.builtin .bool, .const yes), 0) := by rfl
  obtain ⟨_, hkeeping, _⟩ :=
    only_a_disagreement_is_a_counterexample negating keeping type (.const yes) 0
  obtain ⟨_, hfailing, _⟩ :=
    only_a_disagreement_is_a_counterexample negating failing type (.const yes) 0
  obtain ⟨_, hforgetting, _⟩ :=
    only_a_disagreement_is_a_counterexample forgetting keeping type (.const yes) 0
  obtain ⟨haccepts, _, _, _, hcompare⟩ :=
    (hkeeping 1 _ _ _ hprogram).2 _ 0 (Term.const no) rfl (.term _)
  obtain ⟨_, _, _, hinternal, _⟩ :=
    (hfailing 1 _ _ _ hprogram).2 _ 0 (Term.const no) rfl (.term _)
  obtain ⟨_, hrefuses, _⟩ :=
    (hforgetting 1 _ _ _ hprogram).2 _ 0 (Term.const ⟨.unit, none⟩) rfl (.term _)
  refine ⟨haccepts 0 (by rfl), ?_, hinternal _ 0 rfl rfl, hrefuses _ 0 (by rfl)⟩
  have hdiffer : ¬ (Term.const no).erase.alphaEq (UTerm.const yes) := by decide
  have hend := hcompare _ 0 (UTerm.const yes) rfl (.term _)
  rwa [if_neg hdiffer] at hend

/-! ## A result that the checker gives no answer about -/

namespace Ty

/-- An application whose function runs out of fuel runs out of fuel. -/
theorem run_normalize_app_of_none {fuel : Nat} {f : Ty} {n m : Int}
    (h : (f.normalize fuel).run n = (none, m)) (t : Ty) :
    ((app f t).normalize fuel).run n = (none, m) := by
  cases fuel <;>
  · rw [normalize] at h
    rw [normalize, normalizeWith, OptionT.run_bind, Option.elimM, Fresh.bind_apply, h]
    rfl

/-- `λz. z z z` -/
def tripling (z : TyName) : Ty := .lam z .star (.app (.app (.var z) (.var z)) (.var z))

/-- Applied to itself, `λz. z z z` has no kind and no normal form. -/
theorem run_normalize_tripling (z : TyName) (fuel : Nat) (n : Int) :
    ((app (tripling z) (tripling z)).normalize fuel).run n = (none, n) := by
  have hsubst : (app (app (var z) (var z)) (var z)).subst z (tripling z) n =
      (app (app (tripling z) (tripling z)) (tripling z), n) := by
    simp [subst, substWithin, size]
  induction fuel with
  | zero => rfl
  | succ fuel ih =>
    -- contracting the redex leaves the same redex in the place of the function
    change ((((app (app (var z) (var z)) (var z)).subst z (tripling z) n).1).normalize fuel).run
      ((app (app (var z) (var z)) (var z)).subst z (tripling z) n).2 = _
    rw [hsubst]
    exact run_normalize_app_of_none ih (tripling z)

end Ty

namespace Captured

def f : TyName := ⟨"f", 0⟩
def c : TyName := ⟨"c", 1⟩
def z : TyName := ⟨"z", 2⟩
def x : Name := ⟨"x", 3⟩

def unary : Kind := .arrow .star .star
def binary : Kind := .arrow .star unary

/-- `f (f c c) (f c c)` -/
def declared : Ty :=
  let fcc : Ty := .app (.app (.var f) (.var c)) (.var c)
  .app (.app (.var f) fcc) fcc

/-- `λf. λz. f z` -/
def applying : Ty := .lam f unary (.lam z .star (.app (.var f) (.var z)))

/-- `λf. λz. f z z` -/
def doubling : Ty := .lam f binary (.lam z .star (.app (.app (.var f) (.var z)) (.var z)))

/-- A variable whose declared type has `f` and `c` in it, under two type abstractions. -/
def passing (f' c' : TyName) : Term :=
  .tyLam f' (.arrow unary unary) (.tyLam c' (.arrow binary unary) (.var x))

/-- The variable is declared, and the abstractions over it are instantiated. -/
def term (f' c' : TyName) : Term :=
  .tyLam f binary (.tyLam c .star (.lam x declared
    (.inst (.inst (passing f' c') applying) doubling)))

/-- Where the abstractions take the names `f` and `c`, the first instantiation puts its type
for the `f` of the declared type, and what is left is `c c (c c)`. -/
theorem run_inferType_passing (fuel : Nat) :
    ((Term.inst (passing f c) applying).inferType (fuel + 2) .default
        [(c, .star), (f, binary)] [(x, declared)]).run 10 =
      (.ok (.all c (.arrow binary unary)
        (.app (.app (.var c) (.var c)) (.app (.var c) (.var c)))), 10) := by
  rfl

/-- With `λf. λz. f z z` for `c`, this comes to `λz. z z z` applied to itself. -/
theorem run_normalize_doubling (fuel : Nat) :
    ∃ m, ((Ty.app (.app doubling doubling) (.app doubling doubling)).normalize fuel).run 10 =
      (none, m) := by
  match fuel with
  | 0 => exact ⟨_, rfl⟩
  | 1 => exact ⟨_, rfl⟩
  | 2 => exact ⟨_, rfl⟩
  | fuel + 3 =>
    have hself := Ty.run_normalize_tripling z (fuel + 2) 12
    exact ⟨12, Ty.run_normalize_app_of_none hself (Ty.tripling z)⟩

theorem run_inferType_term (fuel : Nat) :
    ∃ m, ((term f c).inferType fuel .default [] []).run 10 = (.error .unfinished, m) := by
  match fuel with
  | 0 => exact ⟨_, rfl⟩
  | 1 => exact ⟨_, rfl⟩
  | fuel + 2 =>
    obtain ⟨m, hm⟩ := run_normalize_doubling (fuel + 2)
    have hinst : ((Term.inst (.inst (passing f c) applying) doubling).inferType (fuel + 2)
        .default [(c, .star), (f, binary)] [(x, declared)]).run 10 = (.error .unfinished, m) := by
      rw [Term.inferType, Fresh.run_bind_of_ok (run_inferType_passing fuel)]
      refine (Fresh.run_bind_of_ok (a := ()) (k := 10) rfl).trans ?_
      refine (Fresh.run_bind_of_ok (a := doubling) (k := 10) rfl).trans ?_
      refine (Fresh.run_bind_of_ok (k := 10)
        (a := Ty.app (.app doubling doubling) (.app doubling doubling)) rfl).trans ?_
      exact Fresh.run_bind_of_ok (Fresh.run_lift_eq_ok.mpr hm)
    refine ⟨m, Fresh.run_bind_of_error (Fresh.run_bind_of_error ?_)⟩
    refine (Fresh.run_bind_of_ok (a := ()) (k := 10) rfl).trans ?_
    refine (Fresh.run_bind_of_ok (a := declared) (k := 10) rfl).trans ?_
    exact Fresh.run_bind_of_error hinst

end Captured

/-- An evaluator may answer with a term whose type abstractions take names from the declared
type of a variable. Then the checker, which lets them capture, never answers, and the law of
preservation has no verdict, whereas it has one on the same term with other names. On a reference
out of scope neither law has a verdict, since conversion has no name for it. -/
theorem a_result_may_leave_the_laws_without_a_verdict :
    let unit : PosTy := .builtin .unit
    let value : PosTerm := .const ⟨.unit, none⟩
    let giving : Term → TypedEvaluator := fun o _ => pure (.ok o)
    let keeping : UntypedEvaluator := fun t => pure (.ok t)
    let captured : Term := Captured.term Captured.f Captured.c
    let apart : Term := Captured.term ⟨"f", 4⟩ ⟨"c", 5⟩
    (captured.alphaEq apart ∧ captured.Below 10 ∧ captured.free = [] ∧ captured.freeTypes = []) ∧
      (∀ fuel, ∃ m, (Laws.typePreservation fuel (giving captured) unit value).run 10 =
        (.error (.breakdown .unfinished), m)) ∧
      (Laws.typePreservation 2 (giving apart) unit value).run 10 =
        (.error (.failure (.counterexample
          (.typePreservation unit value (.const ⟨.unit, none⟩) apart))), 10) ∧
      ∀ fuel,
        let unscoped := (.error (.breakdown (.conversion (.outOfScope ⟨0, 0⟩))), 10)
        (Laws.typePreservation fuel (giving (.const ⟨.unit, none⟩)) unit (.var 0)).run 10 =
            unscoped ∧
          (Laws.machinesAgree fuel (giving (.const ⟨.unit, none⟩)) keeping unit (.var 0)).run 10 =
            unscoped := by
  intro unit value giving keeping captured apart
  have hbelow : captured.Below 10 := by
    simp [captured, Captured.term, Captured.passing, Captured.declared, Captured.applying,
      Captured.doubling, Captured.f, Captured.c, Captured.z, Captured.x, Term.Below, Ty.Below]
  refine ⟨⟨by decide, hbelow, by decide, by decide⟩, fun fuel => ?_, by rfl, fun fuel => ?_⟩
  · have hprogram : (Laws.namedProgram fuel unit value).run 10 =
        (.ok (.builtin .unit, .const ⟨.unit, none⟩), 10) := by
      cases fuel <;> rfl
    obtain ⟨m, hm⟩ := Captured.run_inferType_term fuel
    have hcheck : (captured.checkAtNormalForm fuel (.builtin .unit)).run 10 =
        (.error .unfinished, m) := by
      refine (Fresh.run_bind_of_ok (a := .builtin .unit) (k := 10) ?_).trans
        (Fresh.run_bind_of_error hm)
      cases fuel <;> rfl
    refine ⟨m, ?_⟩
    rw [Laws.run_typePreservation hprogram rfl (.term captured), Laws.run_checked_unfinished hcheck]
  · have hprogram : (Laws.namedProgram fuel unit (.var 0)).run 10 =
        (.error (.breakdown (.conversion (.outOfScope ⟨0, 0⟩))), 10) := by
      cases fuel <;> rfl
    exact Laws.laws_of_no_program hprogram

end FomegaLab
