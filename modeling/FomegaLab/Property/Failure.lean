-- Why a property does not hold of an example. Only a counterexample blames the
-- calculus; every other failure blames the generator, the checker or a machine.
import FomegaLab.Machine.Fault
import FomegaLab.Property.Counterexample
import FomegaLab.Text.Faults

namespace FomegaLab

/-- The two evaluators that properties run. -/
inductive Evaluator where
  | typed
  | untyped
deriving DecidableEq

def Evaluator.label : Evaluator → String
  | .typed => "CK"
  | .untyped => "UCEK"

inductive Failure where
  | generator (m : Misfit)
  | typeCheck (f : TypeFault)
  | evaluation (evaluator : Evaluator) (reason : FaultReason)
  | counterexample (c : Counterexample)

def Failure.message : Failure → String
  | .generator m => "generator error: " ++ m.message
  | .typeCheck f => "type error: " ++ f.message
  | .evaluation evaluator reason => evaluator.label ++ " error: " ++ reason.message
  | .counterexample c => "counter example error: " ++ c.report

/-- What ends a property without a verdict on the example. -/
inductive Breakdown where
  | conversion (e : ConvertError)
  | evaluation (reason : FaultReason)
  | unfinished
  /-- The property is about values of another sort. -/
  | misapplied

def Breakdown.message : Breakdown → String
  | .conversion e => e.message
  | .evaluation reason => reason.message
  | .unfinished => "normalization ran out of fuel"
  | .misapplied => "the property does not apply to values of this sort"

/-- How the application of a property ends when it does not hold. -/
inductive PropertyError where
  | failure (f : Failure)
  | breakdown (b : Breakdown)

end FomegaLab
