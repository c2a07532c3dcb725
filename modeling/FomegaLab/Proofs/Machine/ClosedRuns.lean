-- Closed programs on the machine with environments. In every state that a closed program
-- reaches, each part has all its names bound: the focus and the pending arguments by their
-- environments, the bodies of closures by their binders and environments, all the way down.
-- So no name is ever missing, and whatever leaves the machine is closed.
import FomegaLab.Proofs.Machine.Discharge
import Mathlib.Logic.Relation

namespace FomegaLab.CEK

/-! ## Closed states -/

/-- An environment has a value for every free name of the term, and all its values are closed. -/
structure Env.Closes (env : Env) (t : UTerm) : Prop where
  binds : ∀ x ∈ t.free, env.Binds x
  closed : env.Closed

def Frame.Closed : Frame → Prop
  | .awaitArgument argument env => env.Closes argument
  | .awaitFunction function => function.Closed
  | .force => True

structure State.Closed (s : State) : Prop where
  focus : s.env.Closes s.focus
  stack : ∀ frame ∈ s.stack, frame.Closed

/-- No name was missing, and the term that the fault arose at is closed. -/
def ClosedFault (f : Fault UTerm) : Prop :=
  (∀ x, f.reason ≠ .freeVariable x) ∧ ∃ t, f.cause = some t ∧ t.free = []

def Outcome.Closed : Outcome → Prop
  | .next s => s.Closed
  | .value v => v.Closed
  | .fault f => ClosedFault f

namespace Env.Closes

variable {env : Env} {t body argument : UTerm} {x : Name}

/-- A part whose free names are free in the whole is closed by the same environment. -/
theorem part (h : env.Closes t) {s : UTerm} (hs : ∀ y ∈ s.free, y ∈ t.free) : env.Closes s :=
  ⟨fun y hy => h.binds y (hs y hy), h.closed⟩

theorem value (h : env.Closes (.var x)) : ∃ v, env.find? x = some v ∧ v.Closed := by
  have hx : env.Binds x := h.binds x (by simp [UTerm.free])
  unfold Binds at hx
  rcases hv : env.find? x with _ | v
  · simp [hv] at hx
  · exact ⟨v, rfl, closed_find h.closed hv⟩

theorem closure (h : env.Closes (.lam x body)) : (Value.closure x body env).Closed := by
  refine ⟨?_, h.closed⟩
  intro y hy
  by_cases hyx : y = x
  · exact Or.inl hyx
  · exact Or.inr (h.binds y (by simp [UTerm.free, hy, hyx]))

theorem suspension (h : env.Closes (.delay body)) : (Value.suspension body env).Closed :=
  ⟨h.binds, h.closed⟩

/-- Entering a closure binds the one name that its environment may leave open. -/
theorem enter {v : Value} (hf : (Value.closure x body env).Closed) (hv : v.Closed) :
    (Env.bind x v env).Closes body := by
  obtain ⟨hbody, henv⟩ := hf
  refine ⟨?_, hv, henv⟩
  intro y hy
  rw [binds_bind]
  rcases hbody y hy with rfl | hy
  · exact Or.inl rfl
  · exact Or.inr hy

end Env.Closes

/-! ## What a step keeps -/

theorem giveBack_closed {v : Value} (hv : v.Closed) {stack : List Frame}
    (hs : ∀ frame ∈ stack, frame.Closed) : (giveBack v stack).Closed := by
  rcases stack with _ | ⟨frame, stack⟩
  · exact hv
  have hframe : frame.Closed := hs frame List.mem_cons_self
  have hrest : ∀ frame ∈ stack, frame.Closed := fun g hg => hs g (List.mem_cons_of_mem frame hg)
  cases frame with
  | awaitArgument argument env => exact ⟨hframe, List.forall_mem_cons.mpr ⟨hv, hrest⟩⟩
  | awaitFunction f =>
    cases f with
    | closure x body env => exact ⟨.enter hframe hv, hrest⟩
    | const | suspension =>
      refine ⟨nofun, _, rfl, ?_⟩
      simp [UTerm.free, Value.free_discharge hframe, Value.free_discharge hv]
  | force =>
    cases v with
    | suspension body env => exact ⟨⟨hv.1, hv.2⟩, hrest⟩
    | const | closure => exact ⟨nofun, _, rfl, Value.free_discharge hv⟩

/-- A step from a closed state does not miss a name, and what it leads to is closed. -/
theorem step_closed {s : State} (h : s.Closed) : (step s).Closed := by
  obtain ⟨t, env, stack⟩ := s
  obtain ⟨hfocus, hstack⟩ := h
  cases t with
  | var x =>
    obtain ⟨v, hx, hv⟩ := hfocus.value
    simp only [step, hx]
    exact giveBack_closed hv hstack
  | lam x body => exact giveBack_closed hfocus.closure hstack
  | delay body => exact giveBack_closed hfocus.suspension hstack
  | const l =>
    have hv : (Value.const l).Closed := trivial
    exact giveBack_closed hv hstack
  | app f a =>
    have hf : env.Closes f := hfocus.part (by simp +contextual [UTerm.free])
    have ha : env.Closes a := hfocus.part (by simp +contextual [UTerm.free])
    exact ⟨hf, List.forall_mem_cons.mpr ⟨ha, hstack⟩⟩
  | force t => exact ⟨hfocus.part fun _ hy => hy, List.forall_mem_cons.mpr ⟨trivial, hstack⟩⟩
  | error => exact ⟨nofun, _, rfl, rfl⟩

/-! ## Whole runs -/

/-- The states that steps reach. -/
def Reaches : State → State → Prop := Relation.ReflTransGen fun s s' => step s = .next s'

theorem Reaches.closed {s s' : State} (hr : Reaches s s') (h : s.Closed) : s'.Closed := by
  induction hr with
  | refl => exact h
  | tail _ hstep ih =>
    have hnext := step_closed ih
    rw [hstep] at hnext
    exact hnext

theorem start_closed {u : UTerm} (h : u.free = []) : (start u).Closed :=
  ⟨⟨by simp [start, h], trivial⟩, by simp [start]⟩

/-- What an evaluation gives is closed, be it a value or a fault. -/
def ClosedEnd : Except (Fault UTerm) UTerm → Prop
  | .ok v => v.free = []
  | .error f => ClosedFault f

theorem run_closed {exhausted : Fault UTerm} (hex : ClosedFault exhausted) (steps : Nat)
    {s : State} (h : s.Closed) : ClosedEnd (run exhausted steps s) := by
  induction steps generalizing s with
  | zero => exact hex
  | succ steps ih =>
    have hstep := step_closed h
    unfold run
    generalize step s = o at hstep
    rcases o with s' | v | f
    · exact ih hstep
    · exact Value.free_discharge hstep
    · exact hstep

/-- The machine keeps closed programs closed. Every state that it reaches is closed, and at
every budget the evaluation gives a closed term, or ends with a fault at a closed term that is
not about a free name. -/
theorem closed_programs_stay_closed (u : UTerm) (h : u.free = []) :
    (∀ s, Reaches (start u) s → s.Closed) ∧
    ∀ budget, (∀ v, evaluate budget u = .ok v → v.free = []) ∧
      ∀ f, evaluate budget u = .error f →
        (∀ x, f.reason ≠ .freeVariable x) ∧ ∃ t, f.cause = some t ∧ t.free = [] := by
  refine ⟨fun s hs => hs.closed (start_closed h), fun budget => ?_⟩
  have hex : ClosedFault ⟨.outOfBudget .cek budget, some u⟩ := ⟨nofun, u, rfl, h⟩
  have hend : ClosedEnd (evaluate budget u) := run_closed hex budget.toNat (start_closed h)
  constructor
  · intro v hv
    rwa [hv] at hend
  · intro f hf
    rwa [hf] at hend

/-- A closure that is forced: the name in its body is bound by its environment, and the term
that is reported has the value in the place of the name. -/
theorem closed_programs_stay_closed_when_a_closure_is_forced :
    let x : Name := ⟨"x", 0⟩
    let y : Name := ⟨"y", 1⟩
    let c : UTerm := .const ⟨.unit, none⟩
    let body : UTerm := .lam x (.app (.var y) (.var x))
    let u : UTerm := .app (.lam y (.force body)) c
    let env : Env := .bind y (.const ⟨.unit, none⟩) .empty
    let fault : Fault UTerm := ⟨.forcedNonDelay, some (.force (.lam x (.app c (.var x))))⟩
    u.free = [] ∧ Reaches (start u) ⟨body, env, [.force]⟩ ∧
      State.Closed ⟨body, env, [.force]⟩ ∧ evaluate 5 u = .error fault ∧
      (∀ z, fault.reason ≠ .freeVariable z) ∧ ∃ t, fault.cause = some t ∧ t.free = [] := by
  intro x y c body u env fault
  have hfree : u.free = [] := by decide
  have hreach : Reaches (start u) ⟨body, env, [.force]⟩ :=
    .head rfl <| .head rfl <| .head rfl <| .single rfl
  have hend : evaluate 5 u = .error fault := by rfl
  obtain ⟨hstates, hends⟩ := closed_programs_stay_closed u hfree
  exact ⟨hfree, hreach, hstates _ hreach, hend, (hends 5).2 fault hend⟩

end FomegaLab.CEK
