-- Running a property over the members of a family, in one of two ways: a
-- fail-fast run stops at the first example on which the property fails, and an
-- exhaustive run applies the property to all and collects the counterexamples.
--
-- In both, a failure that is not a counterexample aborts the run, so that a fault
-- of the harness never passes for a fault of the calculus. The error shows the value,
-- so on a value that is no positional syntax the run ends with that fault instead.
import FomegaLab.Harness.Journal
import FomegaLab.Property.Laws

namespace FomegaLab

inductive RunMode where
  | failFast
  | exhaustive
deriving DecidableEq

namespace RunMode

def all : List RunMode := [failFast, exhaustive]

def text : RunMode → String
  | failFast => "FAIL_FAST"
  | exhaustive => "EXHAUSTIVE"

end RunMode

/-- How a run ends without a report. -/
inductive RunError (V : Type) where
  | search (f : SearchFault)
  | counterexamples (name : String) (examples : Nat) (found : List Counterexample)
  /-- The value comes with the text that shows it. -/
  | aborted (name : String) (value : V) (shown : String) (failure : Failure)
  /-- There was a value to abort on, but it could not be shown. -/
  | unshown (e : NotSyntax)
  | passedOnRerun (name : String) (value : V)
  | breakdown (b : Breakdown)

def RunError.message {V : Type} [Showable V] : RunError V → String
  | search f => f.message
  | counterexamples name examples found =>
    name ++ ": " ++ toString found.length ++ " of " ++ toString examples
      ++ " examples are counterexamples\n"
      ++ "\n".intercalate (found.map fun c => (Failure.counterexample c).message)
  | aborted name _ shown failure =>
    name ++ ": aborted on " ++ shown ++ " (not a counterexample, the harness itself failed): "
      ++ failure.message
  | unshown e => e.message
  | passedOnRerun name value =>
    name ++ ": property failed on " ++ Showable.fields value ++ " but passed when rerun"
  | breakdown b => b.message

/-- What a property says about one example. -/
inductive Verdict where
  | holds
  | fails (f : Failure)

/-- A run over values of type `V`. Errors keep the session. -/
abbrev Run (σ V : Type) := ExceptT (RunError V) (StateM (Session σ V))

namespace Run

variable {σ V : Type}

def write (e : Entry V) : Run σ V Unit := ExceptT.lift (Session.write e)

/-- The search of a run. -/
def search (family : Family V) (options : SearchOptions) : Run σ V (Search V) :=
  match family.toSearch options with
  | .ok s => return s
  | .error f => throw (.search f)

/-- Applies a property. A breakdown ends the run. -/
def verdict (check : CheckIn σ Unit) : Run σ V Verdict := do
  match ← ExceptT.lift (Session.within check.run) with
  | .ok () => return .holds
  | .error (.failure f) => return .fails f
  | .error (.breakdown b) => throw (.breakdown b)

/-- Ends a run because of a failure that is not a counterexample. The value is shown
before anything is written. -/
def abort {α : Type} [Showable V] (name : String) (value : V) (f : Failure) : Run σ V α :=
  match Showable.shown value with
  | .error e => throw (.unshown e)
  | .ok shown => do
    write (.aborted name shown f)
    throw (.aborted name value shown f)

/-- Ends a run well. -/
def finish (name : String) (examples : Nat) : Run σ V Report := do
  write (.finished ⟨name, examples⟩)
  return ⟨name, examples⟩

end Run

/-- Whether a property holds of one example. -/
def Run.holds {σ V : Type} (check : CheckIn σ Unit) : Run σ V Bool := do
  match ← Run.verdict check with
  | .holds => return true
  | .fails _ => return false

/-- Looks for the first failing example and applies the property to it once more
to learn how it fails. -/
def runFailFast {σ V : Type} [Showable V] (name : String) (options : SearchOptions)
    (family : Family V) (property : V → CheckIn σ Unit) : Run σ V Report := do
  let search ← Run.search family options
  match ← search.firstFailure fun v => Run.holds (property v) with
  | .exhausted count => Run.finish name count
  | .found value count =>
    match ← Run.verdict (property value) with
    | .holds => throw (.passedOnRerun name value)
    | .fails (.counterexample c) =>
      Run.write (.counterexample name c)
      throw (.counterexamples name count [c])
    | .fails f => Run.abort name value f

/-- One step of an exhaustive run, with the newest counterexample first. -/
def checkNext {σ V : Type} [Showable V] (name : String) (property : V → CheckIn σ Unit)
    (value : V) (found : List Counterexample) : Run σ V (ForInStep (List Counterexample)) := do
  Run.write (.checking name value)
  match ← Run.verdict (property value) with
  | .holds => return .yield found
  | .fails (.counterexample c) =>
    Run.write (.counterexample name c)
    return .yield (c :: found)
  | .fails f => Run.abort name value f

/-- Applies a property to every member and reports the counterexamples at the end. -/
def runExhaustive {σ V : Type} [Showable V] (name : String) (options : SearchOptions)
    (family : Family V) (property : V → CheckIn σ Unit) : Run σ V Report := do
  let search ← Run.search family options
  let (count, found) ← search.offer (checkNext name property) []
  if found.isEmpty then Run.finish name count
  else throw (.counterexamples name count found.reverse)

/-- Runs a property in either mode. -/
def runProperty {σ V : Type} [Showable V] (mode : RunMode) (name : String)
    (options : SearchOptions) (family : Family V) (property : V → CheckIn σ Unit) :
    Run σ V Report :=
  match mode with
  | .failFast => runFailFast name options family property
  | .exhaustive => runExhaustive name options family property

/-- The members of an index, with a note of how many there are. -/
def searchIndex {σ : Type} (fuel : Nat) (options : SearchOptions) (index : Index) :
    ExceptT SearchFault (StateM (Session σ Sample)) (List Sample) := do
  match (index.family fuel).members options with
  | .ok found =>
    ExceptT.lift (Session.write (.generated found.length index options))
    return found
  | .error f => throw f

end FomegaLab
