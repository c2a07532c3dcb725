-- How an evaluation ends without a value. A user fault is an outcome that the
-- program is entitled to; an internal fault is one that a well-typed program
-- never reaches.
import FomegaLab.Name
import FomegaLab.Word

namespace FomegaLab

inductive Machine where
  | ck
  | cek
deriving DecidableEq

def Machine.text : Machine → String
  | .ck => "CK"
  | .cek => "CEK"

/-- Who answers for a fault. -/
inductive Blame where
  | user
  | internal
  | unknown
deriving DecidableEq

inductive FaultReason where
  | outOfBudget (machine : Machine) (budget : Int)
  | evaluatedError
  | freeVariable (name : Name)
  | appliedNonFunction
  | instantiatedNonAbstraction
  | forcedNonDelay
  | reported (blame : Blame) (text : String)
deriving DecidableEq

namespace FaultReason

def blame : FaultReason → Blame
  | outOfBudget _ _ => .user
  | evaluatedError => .user
  | freeVariable _ => .internal
  | appliedNonFunction => .internal
  | instantiatedNonAbstraction => .internal
  | forcedNonDelay => .internal
  | reported blame _ => blame

def message : FaultReason → String
  | outOfBudget machine budget =>
    unlessLong (isLong budget)
      (machine.text ++ " machine exceeded its budget of " ++ toString budget ++ " steps")
  | evaluatedError => "evaluated error"
  | freeVariable name => unlessLong (isLong name.unique) ("free variable " ++ name.full)
  | appliedNonFunction => "application of a non-function"
  | instantiatedNonAbstraction => "instantiation of a non-type-abstraction"
  | forcedNonDelay => "force of a non-delay"
  | reported _ text => text

end FaultReason

/-- A fault with the term that it arose at, if there is one. -/
structure Fault (τ : Type) where
  reason : FaultReason
  cause : Option τ
deriving DecidableEq

/-- The steps that an evaluation may take if nothing else is said. -/
def defaultBudget : Int := 100000

end FomegaLab
