-- How computations with a state end, whatever the state. A property whose verdict depends
-- on the example only ends in this verdict from every state, and the steps of a run over
-- such a property end the same from every session. So a run is a function of the verdicts
-- on the members.
import FomegaLab.Harness.Run
import FomegaLab.Proofs.Search.Visits

namespace FomegaLab

/-- Whatever state the computation starts in, it ends in `r`. -/
def EndsIn {ε σ α : Type} (x : ExceptT ε (StateM σ) α) (r : Except ε α) : Prop :=
  ∀ s, (x.run s).1 = r

namespace EndsIn

variable {ε σ α β : Type} {x : ExceptT ε (StateM σ) α}

theorem pure (a : α) : EndsIn (Pure.pure a : ExceptT ε (StateM σ) α) (.ok a) := fun _ => rfl

theorem throw (e : ε) : EndsIn (MonadExcept.throw e : ExceptT ε (StateM σ) α) (.error e) :=
  fun _ => rfl

/-- The rest of a computation starts in the state that the first part leaves. -/
theorem run_bind (x : ExceptT ε (StateM σ) α) (f : α → ExceptT ε (StateM σ) β) (s : σ) :
    (x >>= f).run s =
      match (x.run s).1 with
      | .ok a => (f a).run (x.run s).2
      | .error e => (.error e, (x.run s).2) := by
  change (match (x.run s).1 with
    | .ok a => (f a).run
    | .error e => Pure.pure (Except.error e)) (x.run s).2 = _
  cases (x.run s).1 <;> rfl

/-- A computation that cannot fail ends well. -/
theorem run_lift (x : StateM σ α) (s : σ) :
    (ExceptT.lift x : ExceptT ε (StateM σ) α).run s = (.ok (x s).1, (x s).2) := rfl

theorem bind {a : α} (hx : EndsIn x (.ok a)) {f : α → ExceptT ε (StateM σ) β} {r : Except ε β}
    (hf : EndsIn (f a) r) : EndsIn (x >>= f) r := by
  intro s
  rw [run_bind, hx s]
  exact hf _

theorem bind_error {e : ε} (hx : EndsIn x (.error e)) (f : α → ExceptT ε (StateM σ) β) :
    EndsIn (x >>= f) (.error e) := by
  intro s
  rw [run_bind, hx s]

end EndsIn

/-- A search whose test ends in an answer for each member finds the first member for which
the answer is false. -/
theorem Search.endsIn_firstFailure {ε σ V : Type} {search : Search V}
    {holds : V → ExceptT ε (StateM σ) Bool} {answer : V → Bool}
    (h : ∀ v ∈ search.members, EndsIn (holds v) (.ok (answer v))) :
    EndsIn (search.firstFailure holds) (.ok (firstFailureIn answer search.members 0)) := by
  rw [firstFailure, offer_eq]
  generalize search.members = vs at h ⊢
  generalize 0 = count
  induction vs generalizing count with
  | nil => exact .bind (.pure _) (.pure _)
  | cons v vs ih =>
    rw [List.forall_mem_cons] at h
    rw [Visits.offerAll, bind_assoc, bind_assoc, firstFailureIn]
    refine .bind h.1 ?_
    cases answer v with
    | true => exact .bind (.pure _) (ih h.2 (count + 1))
    | false => exact .bind (.pure _) (.bind (.pure _) (.pure _))

/-! ## Properties with a verdict for each example -/

namespace Verdict

/-- How the application of a property with this verdict ends. -/
def ending : Verdict → Except PropertyError Unit
  | holds => .ok ()
  | fails f => .error (.failure f)

/-- What a counterexample says about the example. -/
def counterexample? : Verdict → Option Counterexample
  | fails (.counterexample c) => some c
  | _ => none

/-- The failure, if it is no counterexample. -/
def fault? : Verdict → Option Failure
  | holds => none
  | fails (.counterexample _) => none
  | fails f => some f

/-- Whether the property holds. -/
def isPass : Verdict → Bool
  | holds => true
  | fails _ => false

theorem isPass_iff {v : Verdict} : v.isPass = true ↔ v = holds := by
  cases v <;> simp [isPass]

theorem isPass_eq_false_iff {v : Verdict} : v.isPass = false ↔ ∃ f, v = fails f := by
  cases v <;> simp [isPass]

theorem fails_of_fault? {v : Verdict} {f : Failure} (h : v.fault? = some f) : v = fails f := by
  cases v with
  | holds => cases h
  | fails g => cases g <;> cases h <;> rfl

/-- What fails without a fault is a counterexample. -/
theorem exists_counterexample {v : Verdict} (hv : v ≠ holds) (hfault : v.fault? = none) :
    ∃ c, v = fails (.counterexample c) := by
  cases v with
  | holds => exact absurd rfl hv
  | fails f =>
    cases f with
    | counterexample c => exact ⟨c, rfl⟩
    | _ => cases hfault

theorem filterMap_counterexample?_of_holds {V : Type} {verdict : V → Verdict} {vs : List V}
    (h : ∀ v ∈ vs, verdict v = holds) :
    (vs.filterMap fun v => (verdict v).counterexample?) = [] := by
  rw [List.filterMap_eq_nil_iff]
  intro v hv
  rw [h v hv]
  rfl

end Verdict

/-- On the values that belong to the family, the property has a verdict, and the verdict
depends on the value only. -/
def Family.HasVerdicts {σ V : Type} (family : Family V) (property : V → CheckIn σ Unit)
    (verdict : V → Verdict) : Prop :=
  ∀ v, family.contains v = true → EndsIn (property v) (verdict v).ending

namespace RunError

variable {V : Type} [Showable V]

/-- How a fault at a value ends a run: the run is aborted there, provided that the value can
be shown. -/
def ofFault (name : String) (v : V) (f : Failure) : RunError V :=
  match Showable.shown v with
  | .ok text => .aborted name v text f
  | .error e => .unshown e

theorem ofFault_of_shown {v : V} {text : String} (h : Showable.shown v = .ok text)
    (name : String) (f : Failure) : ofFault name v f = .aborted name v text f := by
  rw [ofFault, h]

theorem ofFault_of_unshown {v : V} {e : NotSyntax} (h : Showable.shown v = .error e)
    (name : String) (f : Failure) : ofFault name v f = .unshown e := by
  rw [ofFault, h]

theorem ofFault_ne_passedOnRerun (name who : String) (v w : V) (f : Failure) :
    ofFault name v f ≠ .passedOnRerun who w := by
  unfold ofFault
  split <;> nofun

/-- A fault never passes for counterexamples. -/
theorem ofFault_ne_counterexamples (name who : String) (v : V) (f : Failure) (n : Nat)
    (cs : List Counterexample) : ofFault name v f ≠ .counterexamples who n cs := by
  unfold ofFault
  split <;> nofun

end RunError

namespace Run

variable {σ V : Type}

theorem endsIn_write (e : Entry V) : EndsIn (Run.write e : Run σ V Unit) (.ok ()) := fun _ => rfl

theorem endsIn_abort {α : Type} [Showable V] (name : String) (v : V) (f : Failure) :
    EndsIn (Run.abort name v f : Run σ V α) (.error (.ofFault name v f)) := by
  rw [Run.abort, RunError.ofFault]
  cases Showable.shown v with
  | error e => exact .throw _
  | ok text => exact .bind (endsIn_write _) (.throw _)

/-- A run that a fault ends is aborted at a value that can be shown. At any other value it ends
with the part that cannot be. -/
theorem endsIn_ofFault {α : Type} [Showable V] {x : Run σ V α} {name : String} {v : V}
    {f : Failure} (h : EndsIn x (.error (.ofFault name v f))) :
    (∀ text, Showable.shown v = .ok text → EndsIn x (.error (.aborted name v text f))) ∧
      ∀ e, Showable.shown v = .error e → EndsIn x (.error (.unshown e)) := by
  constructor
  · intro text hv
    rwa [RunError.ofFault_of_shown hv] at h
  · intro e hv
    rwa [RunError.ofFault_of_unshown hv] at h

theorem endsIn_finish (name : String) (count : Nat) :
    EndsIn (Run.finish name count : Run σ V Report) (.ok ⟨name, count⟩) :=
  .bind (endsIn_write _) (.pure _)

theorem endsIn_verdict {check : CheckIn σ Unit} {v : Verdict} (h : EndsIn check v.ending) :
    EndsIn (Run.verdict check : Run σ V Verdict) (.ok v) := by
  have hrun : EndsIn (ExceptT.lift (Session.within check.run) : Run σ V _) (.ok v.ending) :=
    fun s => congrArg Except.ok (h s.state)
  refine .bind hrun ?_
  cases v with
  | holds => exact .pure _
  | fails f => exact .pure _

theorem endsIn_holds {check : CheckIn σ Unit} {v : Verdict} (h : EndsIn check v.ending) :
    EndsIn (Run.holds check : Run σ V Bool) (.ok v.isPass) := by
  refine .bind (endsIn_verdict h) ?_
  cases v with
  | holds => exact .pure _
  | fails f => exact .pure _

theorem endsIn_search {family : Family V} {options : SearchOptions} {search : Search V}
    (h : family.toSearch options = .ok search) :
    EndsIn (Run.search family options : Run σ V (Search V)) (.ok search) := by
  rw [Run.search, h]
  exact .pure _

theorem endsIn_search_error {family : Family V} {options : SearchOptions} {f : SearchFault}
    (h : family.toSearch options = .error f) :
    EndsIn (Run.search family options : Run σ V (Search V)) (.error (.search f)) := by
  rw [Run.search, h]
  exact .throw _

end Run

end FomegaLab
