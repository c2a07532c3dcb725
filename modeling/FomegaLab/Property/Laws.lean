-- The laws of the calculus, as checks of one example. Each check names a value,
-- runs it through the checker, the normalizers and the machines, and fails with
-- what it found. Every check starts from empty scopes, so examples share nothing
-- but the supply of uniques.
import FomegaLab.Machine.CEK
import FomegaLab.Machine.CK
import FomegaLab.Named.Typing
import FomegaLab.Property.Failure
import FomegaLab.Search.Index

namespace FomegaLab

/-- A check of one example, in a state of type `σ`. -/
abbrev CheckIn (σ : Type) := ExceptT PropertyError (StateM σ)

/-- The checks of this module draw uniques and need no other state. -/
abbrev Check := CheckIn Int

/-- An evaluator of typed terms. It may draw uniques. -/
abbrev TypedEvaluator := Term → Fresh (Except (Fault Term) Term)

/-- An evaluator of untyped terms. -/
abbrev UntypedEvaluator := UTerm → Fresh (Except (Fault UTerm) UTerm)

namespace Laws

/-- The texts of type names are `t0`, `t1` and so on. -/
def tyTexts : NameStream := .ofStart "t"

/-- The texts of term names are `x0`, `x1` and so on. -/
def texts : NameStream := .ofStart "x"

/-- The machine for typed terms at its default budget. -/
def ckEvaluator : TypedEvaluator := CK.evaluate defaultBudget

/-- The machine for untyped terms at its default budget. -/
def cekEvaluator : UntypedEvaluator := fun t => pure (CEK.evaluate defaultBudget t)

/-! ## Stages -/

def fail {α : Type} (f : Failure) : Check α := throw (.failure f)

/-- A misfit blames the generator. Anything else that stops a conversion is no
verdict. -/
def converted {α : Type} (c : Convert α) : Check α := do
  match ← c.run with
  | .ok a => return a
  | .error (.misfit m) => fail (.generator m)
  | .error e => throw (.breakdown (.conversion e))

/-- Runs the type checker and turns a fault into the failure that `blame` says. -/
def checked {α : Type} (blame : TypeFault → Failure) (t : Typing α) : Check α := do
  match ← t.run with
  | .ok a => return a
  | .error (.fault f) => fail (blame f)
  | .error .unfinished => throw (.breakdown .unfinished)

def kindChecked (blame : TypeFault → Failure) (t : Ty) (k : Kind) : Check Unit :=
  match t.checkKind [] k with
  | .ok () => pure ()
  | .error f => fail (blame f)

def normalForm (fuel : Nat) (t : Ty) : Check Ty := do
  match ← (t.normalize fuel).run with
  | some t => return t
  | none => throw (.breakdown .unfinished)

def positionalNormalForm (fuel : Nat) (t : PosTy) : Check PosTy :=
  match t.normalize fuel with
  | some t => return t
  | none => throw (.breakdown .unfinished)

/-- Checks a closed term against the normal form of a type. -/
def typeChecked (fuel : Nat) (blame : TypeFault → Failure) (t : Term) (type : Ty) :
    Check Unit := do
  let type ← normalForm fuel type
  checked blame (t.checkType fuel .default type)

/-- Names a closed type and checks its kind. -/
def namedType (k : Kind) (t : PosTy) : Check Ty := do
  let type ← converted (t.toNamedClosed tyTexts k)
  kindChecked .typeCheck type k
  return type

/-- Names a closed term. -/
def namedTerm (fuel : Nat) (type : PosTy) (term : PosTerm) : Check Term :=
  converted (term.toNamedClosed fuel tyTexts texts type)

/-- Names a closed term with its type, and checks both. -/
def namedProgram (fuel : Nat) (type : PosTy) (term : PosTerm) : Check (Ty × Term) := do
  let namedType ← namedType .star type
  let namedTerm ← namedTerm fuel type term
  typeChecked fuel .typeCheck namedTerm namedType
  return (namedType, namedTerm)

/-! ## Outcomes of evaluation -/

/-- A user fault stands for an `error` of the type of the program. Any other
fault stays a fault. -/
def handleError (type : Ty) (f : Fault Term) : Except (Fault Term) Term :=
  match f.reason.blame with
  | .user => .ok (.error type)
  | _ => .error f

/-- The same for untyped terms. -/
def handleUntypedError (f : Fault UTerm) : Except (Fault UTerm) UTerm :=
  match f.reason.blame with
  | .user => .ok .error
  | _ => .error f

/-- The term that an evaluation came to. An internal fault blames the evaluator. -/
def outcome {τ : Type} (evaluator : Evaluator) (handle : Fault τ → Except (Fault τ) τ)
    (result : Except (Fault τ) τ) : Check τ :=
  match result with
  | .ok t => pure t
  | .error f =>
    match handle f with
    | .ok t => pure t
    | .error f =>
      match f.reason.blame with
      | .internal => fail (.evaluation evaluator f.reason)
      | _ => throw (.breakdown (.evaluation f.reason))

def evaluateTyped (evaluator : TypedEvaluator) (type : Ty) (t : Term) : Check Term := do
  outcome .typed (handleError type) (← evaluator t)

def evaluateUntyped (evaluator : UntypedEvaluator) (t : UTerm) : Check UTerm := do
  outcome .untyped handleUntypedError (← evaluator t)

/-! ## Laws of types -/

/-- A generated type has the kind that it was generated at. -/
def kindCheckingSound (k : Kind) (t : PosTy) : Check Unit := do
  let type ← converted (t.toNamedClosed tyTexts k)
  kindChecked (fun _ => .counterexample (.kindCheck k t)) type k

/-- Naming and normalization commute, and normalization keeps the kind. -/
def normalizationCommutes (fuel : Nat) (k : Kind) (t : PosTy) : Check Unit := do
  let type ← namedType k t
  let left ← normalForm fuel type
  kindChecked (fun _ => .counterexample (.kindPreservation k t)) left k
  let normal ← positionalNormalForm fuel t
  let right ← converted (normal.toNamedClosed tyTexts k)
  if left.alphaEq right then return ()
  else fail (.counterexample (.commute k t left right))

/-- A type of the normal grammar does not reduce. -/
def normalTypesStuck (k : Kind) (t : PosTy) : Check Unit :=
  match t.step with
  | none => pure ()
  | some _ => fail (.counterexample (.normalReduces k t))

/-! ## Laws of terms -/

/-- A generated term has the type that it was generated at. -/
def typeCheckingSound (fuel : Nat) (type : PosTy) (term : PosTerm) : Check Unit := do
  let namedType ← namedType .star type
  let namedTerm ← namedTerm fuel type term
  typeChecked fuel (fun _ => .counterexample (.typeCheck type term)) namedTerm namedType

/-- Evaluation keeps the type of a term. -/
def typePreservation (fuel : Nat) (evaluator : TypedEvaluator) (type : PosTy) (term : PosTerm) :
    Check Unit := do
  let (namedType, before) ← namedProgram fuel type term
  let after ← evaluateTyped evaluator namedType before
  typeChecked fuel (fun _ => .counterexample (.typePreservation type term before after)) after
    namedType

/-- The machines agree up to erasure. -/
def machinesAgree (fuel : Nat) (typed : TypedEvaluator) (untyped : UntypedEvaluator)
    (type : PosTy) (term : PosTerm) : Check Unit := do
  let (namedType, namedTerm) ← namedProgram fuel type term
  let left := (← evaluateTyped typed namedType namedTerm).erase
  let right ← evaluateUntyped untyped namedTerm.erase
  if left.alphaEq right then return ()
  else
    fail (.counterexample
      (.evaluation type term [("untyped CK", left), ("untyped CEK", right)]))

end Laws

/-! ## Laws as properties of samples -/

/-- A property of the samples of an index. -/
abbrev PropertyIn (σ : Type) := Index → Sample → CheckIn σ Unit

abbrev Property := PropertyIn Int

namespace Property

/-- A law of types. It cannot name a sample of another sort. -/
def ofTypeLaw (law : Kind → PosTy → Check Unit) : Property
  | .typesOfKind k, .type t => law k t
  | _, sample => Laws.fail (.generator (.notAType sample.fields))

/-- A law of types from the normal grammar. -/
def ofNormalTypeLaw (law : Kind → PosTy → Check Unit) : Property
  | .normalTypesOfKind k, .normalType t => law k t
  | _, _ => throw (.breakdown .misapplied)

/-- A law of terms. It cannot name a kind where it needs a type. -/
def ofTermLaw (law : PosTy → PosTerm → Check Unit) : Property
  | .termsOfType type, .term t => law type t
  | .termsOfType _, _ => throw (.breakdown .misapplied)
  | .typesOfKind k, _ => Laws.fail (.generator (.notAType k.fields))
  | .normalTypesOfKind k, _ => Laws.fail (.generator (.notAType k.fields))

end Property

end FomegaLab
