-- The CK machine: it evaluates typed terms by substitution, with a stack of
-- frames for what is still to be done with the value of the focus.
import FomegaLab.Machine.Fault
import FomegaLab.Named.Subst

namespace FomegaLab.CK

/-- What waits for the value of the focus. -/
inductive Frame where
  | awaitArgument (argument : Term)
  | awaitFunction (function : Term)
  | instantiate (type : Ty)
deriving DecidableEq

structure State where
  focus : Term
  stack : List Frame
deriving DecidableEq

/-- Where one step leads. -/
inductive Outcome where
  | next (state : State)
  | value (term : Term)
  | fault (f : Fault Term)
deriving DecidableEq

def start (t : Term) : State := ⟨t, []⟩

/-- Gives a value to the innermost frame. -/
def giveBack (value : Term) : List Frame → Fresh Outcome
  | [] => return .value value
  | .awaitArgument argument :: stack =>
    return .next ⟨argument, .awaitFunction value :: stack⟩
  | .awaitFunction function :: stack =>
    match function with
    | .lam x _ body => do
      let body ← body.subst x value
      return .next ⟨body, stack⟩
    | function => return .fault ⟨.appliedNonFunction, some (.app function value)⟩
  | .instantiate type :: stack =>
    match value with
    | .tyLam a _ body => do
      let body ← body.substType a type
      return .next ⟨body, stack⟩
    | value => return .fault ⟨.instantiatedNonAbstraction, some (.inst value type)⟩

/-- One step: looks at the focus, and gives it back if it is a value. -/
def step (s : State) : Fresh Outcome :=
  match s.focus with
  | .app function argument => return .next ⟨function, .awaitArgument argument :: s.stack⟩
  | .inst term type => return .next ⟨term, .instantiate type :: s.stack⟩
  | .error type => return .fault ⟨.evaluatedError, some (.error type)⟩
  | .var x => return .fault ⟨.freeVariable x, some (.var x)⟩
  | .lam x type body => giveBack (.lam x type body) s.stack
  | .tyLam a kind body => giveBack (.tyLam a kind body) s.stack
  | .const l => giveBack (.const l) s.stack

/-- Steps until the machine ends, or ends with `exhausted` after `steps` steps. -/
def run (exhausted : Fault Term) : (steps : Nat) → State → Fresh (Except (Fault Term) Term)
  | 0, _ => return .error exhausted
  | steps + 1, s => do
    match ← step s with
    | .next s => run exhausted steps s
    | .value t => return .ok t
    | .fault f => return .error f

/-- Evaluates a closed term. A budget that is not positive allows no step. -/
def evaluate (budget : Int) (t : Term) : Fresh (Except (Fault Term) Term) :=
  run ⟨.outOfBudget .ck budget, some t⟩ budget.toNat (start t)

end FomegaLab.CK
