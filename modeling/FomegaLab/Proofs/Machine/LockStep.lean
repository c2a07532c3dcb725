-- The two machines in lock step. One step of the machine with environments follows
-- each step of the machine that substitutes, and the states stay related: closing
-- the focus in its environment gives the erased focus. So both machines end after
-- the same number of steps and in the same way, whatever the types say.
import FomegaLab.Machine.CK
import FomegaLab.Proofs.Machine.Discharge
import Mathlib.Data.List.Forall2

namespace FomegaLab

namespace LockStep

/-! ## Related values and states -/

/-- A term and a closed machine value stand for each other if erasing the one
gives what the other discharges to. -/
def SameValue (t : Term) (v : CEK.Value) : Prop := t.erase = v.discharge ∧ v.Closed

/-- A focus with its environment stands for a term. -/
structure SameFocus (t : Term) (u : UTerm) (env : CEK.Env) : Prop where
  erase_eq : t.erase = u.close env.dischargeAt []
  binds : ∀ x ∈ u.free, env.Binds x
  closed : env.Closed

inductive SameFrame : CK.Frame → CEK.Frame → Prop
  | awaitArgument {t : Term} {u : UTerm} {env : CEK.Env} (h : SameFocus t u env) :
      SameFrame (.awaitArgument t) (.awaitArgument u env)
  | awaitFunction {t : Term} {v : CEK.Value} (h : SameValue t v) :
      SameFrame (.awaitFunction t) (.awaitFunction v)
  | instantiate (type : Ty) : SameFrame (.instantiate type) .force

structure SameState (s : CK.State) (m : CEK.State) : Prop where
  focus : SameFocus s.focus m.focus m.env
  stack : List.Forall₂ SameFrame s.stack m.stack

/-- The reasons for which both machines end. Instantiating a value that is no type
abstraction is forcing a value that is no delay. -/
inductive SameReason : FaultReason → FaultReason → Prop
  | outOfBudget (budget : Int) : SameReason (.outOfBudget .ck budget) (.outOfBudget .cek budget)
  | evaluatedError : SameReason .evaluatedError .evaluatedError
  | appliedNonFunction : SameReason .appliedNonFunction .appliedNonFunction
  | instantiated : SameReason .instantiatedNonAbstraction .forcedNonDelay

theorem SameReason.blame_eq {r r' : FaultReason} (h : SameReason r r') : r.blame = r'.blame := by
  cases h <;> rfl

theorem SameReason.unique {r r₁ r₂ : FaultReason} (h₁ : SameReason r r₁)
    (h₂ : SameReason r r₂) : r₁ = r₂ := by
  cases h₁ <;> cases h₂ <;> rfl

/-- Both faults have a cause, and the causes are equal up to erasure. -/
def SameFault (f : Fault Term) (g : Fault UTerm) : Prop :=
  SameReason f.reason g.reason ∧
    ∃ t u, f.cause = some t ∧ g.cause = some u ∧ t.erase = u

inductive SameOutcome : CK.Outcome → CEK.Outcome → Prop
  | next {s : CK.State} {m : CEK.State} (h : SameState s m) : SameOutcome (.next s) (.next m)
  | value {t : Term} {v : CEK.Value} (h : SameValue t v) : SameOutcome (.value t) (.value v)
  | fault {f : Fault Term} {g : Fault UTerm} (h : SameFault f g) :
      SameOutcome (.fault f) (.fault g)

/-! ## One step -/

/-- A value in the focus is a value of the other machine, in its environment. -/
theorem SameFocus.value_var {t : Term} {x : Name} {env : CEK.Env} (h : SameFocus t (.var x) env) :
    ∃ v, env.find? x = some v ∧ SameValue t v := by
  have hx : env.Binds x := h.binds x (by simp [UTerm.free])
  cases hv : env.find? x with
  | none => simp [CEK.Env.Binds, hv] at hx
  | some v =>
    refine ⟨v, rfl, ?_, CEK.Env.closed_find h.closed hv⟩
    rw [h.erase_eq, UTerm.close, if_neg (by simp), CEK.Env.dischargeAt_eq, hv]
    rfl

theorem SameFocus.value_lam {t : Term} {x : Name} {body : UTerm} {env : CEK.Env}
    (h : SameFocus t (.lam x body) env) : SameValue t (.closure x body env) := by
  refine ⟨by rw [h.erase_eq, UTerm.close, CEK.Value.discharge], fun y hy => ?_, h.closed⟩
  by_cases hyx : y = x
  · exact Or.inl hyx
  · exact Or.inr (h.binds y (by simp [UTerm.free, hy, hyx]))

theorem SameFocus.value_delay {t : Term} {body : UTerm} {env : CEK.Env}
    (h : SameFocus t (.delay body) env) : SameValue t (.suspension body env) :=
  ⟨by rw [h.erase_eq, UTerm.close, CEK.Value.discharge], h.binds, h.closed⟩

/-- Applying a function: the argument is put into the body on the one side and into
the environment on the other. -/
theorem sameFocus_beta {x : Name} {type : Ty} {body value : Term} {u : UTerm} {env : CEK.Env}
    {v : CEK.Value} (hf : SameValue (.lam x type body) (.closure x u env))
    (hv : SameValue value v) (n : Int) :
    SameFocus (body.subst x value n).1 u (.bind x v env) := by
  obtain ⟨hbody, hscope, henv⟩ := hf
  have hclosed : value.free = [] := by
    rw [← Term.free_erase, hv.1]
    exact CEK.Value.free_discharge hv.2
  simp only [Term.erase, CEK.Value.discharge, UTerm.lam.injEq, true_and] at hbody
  refine ⟨?_, fun y hy => ?_, hv.2, henv⟩
  · rw [Term.erase_subst hclosed, hbody, hv.1, CEK.close_bind henv]
  · rw [CEK.Env.binds_bind]
    exact (hscope y hy).imp_left Eq.symm

theorem giveBack_related {t : Term} {v : CEK.Value} (h : SameValue t v) {ks : List CK.Frame}
    {ms : List CEK.Frame} (hs : List.Forall₂ SameFrame ks ms) (n : Int) :
    SameOutcome (CK.giveBack t ks n).1 (CEK.giveBack v ms) := by
  cases hs with
  | nil => exact .value h
  | cons hk hs =>
    cases hk with
    | awaitArgument ha => exact .next ⟨ha, .cons (.awaitFunction h) hs⟩
    | instantiate type =>
      have heq := h.1
      cases t <;> cases v <;>
        simp only [Term.erase, CEK.Value.discharge, reduceCtorEq, UTerm.delay.injEq] at heq
      case tyLam.suspension a kind body u env =>
        have hbody := (Term.erase_substType body a type n).trans heq
        exact .next ⟨⟨hbody, h.2.1, h.2.2⟩, hs⟩
      all_goals exact .fault ⟨.instantiated, _, _, rfl, rfl, by rw [Term.erase, h.1]⟩
    | awaitFunction hf =>
      rename_i f w
      have heq := hf.1
      cases f <;> cases w <;>
        simp only [Term.erase, CEK.Value.discharge, reduceCtorEq, UTerm.lam.injEq] at heq
      case lam.closure x type body y u env =>
        obtain ⟨rfl, _⟩ := heq
        exact .next ⟨sameFocus_beta hf h n, hs⟩
      all_goals exact .fault ⟨.appliedNonFunction, _, _, rfl, rfl, by rw [Term.erase, hf.1, h.1]⟩

/-- A term that stands for a value is a value itself, so the machine gives it back. -/
theorem step_of_sameValue {t : Term} {v : CEK.Value} (h : SameValue t v) (ks : List CK.Frame) :
    CK.step ⟨t, ks⟩ = CK.giveBack t ks := by
  have heq := h.1
  cases t <;> cases v <;> simp only [Term.erase, CEK.Value.discharge, reduceCtorEq] at heq <;> rfl

theorem step_related {s : CK.State} {m : CEK.State} (h : SameState s m) (n : Int) :
    SameOutcome (CK.step s n).1 (CEK.step m) := by
  obtain ⟨t, ks⟩ := s
  obtain ⟨u, env, ms⟩ := m
  obtain ⟨hfocus, hstack⟩ := h
  simp only at hfocus hstack
  have heq := hfocus.erase_eq
  cases u with
  | var x =>
    obtain ⟨v, hv, hsame⟩ := hfocus.value_var
    rw [step_of_sameValue hsame]
    simp only [CEK.step, hv]
    exact giveBack_related hsame hstack n
  | lam x body =>
    rw [step_of_sameValue hfocus.value_lam]
    exact giveBack_related hfocus.value_lam hstack n
  | delay body =>
    rw [step_of_sameValue hfocus.value_delay]
    exact giveBack_related hfocus.value_delay hstack n
  | const l =>
    have hsame : SameValue t (.const l) := ⟨heq, trivial⟩
    rw [step_of_sameValue hsame]
    exact giveBack_related hsame hstack n
  | app f a =>
    cases t <;> simp only [Term.erase, UTerm.close, reduceCtorEq, UTerm.app.injEq] at heq
    have hf : ∀ x ∈ f.free, env.Binds x := fun x hx => hfocus.binds x (by simp [UTerm.free, hx])
    have ha : ∀ x ∈ a.free, env.Binds x := fun x hx => hfocus.binds x (by simp [UTerm.free, hx])
    exact .next ⟨⟨heq.1, hf, hfocus.closed⟩,
      .cons (.awaitArgument ⟨heq.2, ha, hfocus.closed⟩) hstack⟩
  | force u =>
    cases t <;> simp only [Term.erase, UTerm.close, reduceCtorEq, UTerm.force.injEq] at heq
    exact .next ⟨⟨heq, hfocus.binds, hfocus.closed⟩, .cons (.instantiate _) hstack⟩
  | error =>
    cases t <;> simp only [Term.erase, UTerm.close, reduceCtorEq] at heq
    exact .fault ⟨.evaluatedError, _, _, rfl, rfl, rfl⟩

/-! ## Whole runs -/

/-- Both evaluations return and the results are equal up to erasure, or both end for
the same reason, blame the same side, and the causes are equal up to erasure. Untyped
terms are compared up to bound names. -/
def SameEnd : Except (Fault Term) Term → Except (Fault UTerm) UTerm → Prop
  | .ok t, .ok u => t.erase.alphaEq u
  | .error f, .error g =>
    SameReason f.reason g.reason ∧ f.reason.blame = g.reason.blame ∧
      ∃ t u, f.cause = some t ∧ g.cause = some u ∧ t.erase.alphaEq u
  | _, _ => False

theorem sameEnd_of_sameFault {f : Fault Term} {g : Fault UTerm} (h : SameFault f g) :
    SameEnd (.error f) (.error g) := by
  obtain ⟨hreason, t, u, ht, hu, rfl⟩ := h
  exact ⟨hreason, hreason.blame_eq, t, _, ht, hu, UTerm.alphaEq_iff.mpr rfl⟩

theorem run_related {exhausted : Fault Term} {exhausted' : Fault UTerm}
    (hex : SameFault exhausted exhausted') (steps : Nat) {s : CK.State} {m : CEK.State}
    (h : SameState s m) (n : Int) :
    SameEnd (CK.run exhausted steps s n).1 (CEK.run exhausted' steps m) := by
  induction steps generalizing s m n with
  | zero => exact sameEnd_of_sameFault hex
  | succ steps ih =>
    have hstep := step_related h n
    rw [CK.run, CEK.run, Fresh.bind_apply]
    generalize CK.step s n = o at hstep ⊢
    obtain ⟨o, n'⟩ := o
    generalize CEK.step m = o' at hstep ⊢
    cases hstep with
    | next hnext => exact ih hnext n'
    | value hv =>
      simp only [Fresh.pure_apply, SameEnd, hv.1]
      exact UTerm.alphaEq_iff.mpr rfl
    | fault hf => exact sameEnd_of_sameFault hf

theorem start_related {t : Term} (h : t.free = []) :
    SameState (CK.start t) (CEK.start t.erase) := by
  refine ⟨⟨?_, ?_, trivial⟩, .nil⟩
  · exact (UTerm.close_eq_self (fun _ _ => Or.inr rfl)).symm
  · rw [CEK.start, Term.free_erase, h]
    simp

/-- A term without free term names, well typed or not, evaluates in the same way on
both machines, at every budget and from every supply of uniques. -/
theorem the_machines_end_alike (t : Term) (h : t.free = []) (budget supply : Int) :
    SameEnd (CK.evaluate budget t supply).1 (CEK.evaluate budget t.erase) :=
  run_related ⟨.outOfBudget budget, t, t.erase, rfl, rfl, rfl⟩ _ (start_related h) supply

/-- A closure under a binder of the name that it closes over. -/
theorem the_machines_end_alike_on_a_closure :
    let x : Name := ⟨"x", 0⟩
    let y : Name := ⟨"y", 1⟩
    let unit : Ty := .builtin .unit
    let shadow : Term := .app (.lam x unit (.var x)) (.var x)
    let t : Term := .app (.lam x unit (.lam y unit shadow)) (.const ⟨.unit, none⟩)
    t.free = [] ∧
      CEK.evaluate 4 t.erase = .ok (.lam y (.app (.lam x (.var x)) (.const ⟨.unit, none⟩))) ∧
      SameEnd (CK.evaluate 4 t 2).1 (CEK.evaluate 4 t.erase) :=
  ⟨by decide, by rfl, the_machines_end_alike _ (by decide) 4 2⟩

end LockStep

end FomegaLab
