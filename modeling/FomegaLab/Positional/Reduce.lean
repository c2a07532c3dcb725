-- Beta reduction of positional types, one step at a time and all at once.
--
-- An ill-kinded type may reduce forever, so `normalize` takes fuel: the number
-- of contractions that may be nested. More fuel keeps a finished answer.
import FomegaLab.Positional.Subst

namespace FomegaLab.PosTy

/-- Contracts the leftmost-outermost redex, if there is one. -/
def step : PosTy → Option PosTy
  | .var _ => none
  | .builtin _ => none
  | .arrow argument result =>
    match argument.step with
    | some argument => some (.arrow argument result)
    | none =>
      match result.step with
      | some result => some (.arrow argument result)
      | none => none
  | .all kind body =>
    match body.step with
    | some body => some (.all kind body)
    | none => none
  | .lam body =>
    match body.step with
    | some body => some (.lam body)
    | none => none
  | .app (.lam body) argument _ => some (body.instantiate argument)
  | .app function argument kind =>
    match function.step with
    | some function => some (.app function argument kind)
    | none =>
      match argument.step with
      | some argument => some (.app function argument kind)
      | none => none

/-- The types that repeated steps reach, at most `limit` of them. The list ends
with `none` if a normal form was reached. -/
def trace : Nat → PosTy → List (Option PosTy)
  | 0, _ => []
  | limit + 1, t =>
    match t.step with
    | some t => some t :: t.trace limit
    | none => [none]

/-- Normalizes the parts first, and leaves a contracted redex to `contracted`. -/
def normalizeWith (contracted : PosTy → Option PosTy) : PosTy → Option PosTy
  | .var index => some (.var index)
  | .builtin b => some (.builtin b)
  | .arrow argument result => do
    let argument ← argument.normalizeWith contracted
    let result ← result.normalizeWith contracted
    return .arrow argument result
  | .all kind body => do
    let body ← body.normalizeWith contracted
    return .all kind body
  | .lam body => do
    let body ← body.normalizeWith contracted
    return .lam body
  | .app function argument kind => do
    let function ← function.normalizeWith contracted
    let argument ← argument.normalizeWith contracted
    match function with
    | .lam body => contracted (body.instantiate argument)
    | function => return .app function argument kind

/-- The beta-normal form, or nothing if the fuel runs out first. -/
def normalize : Nat → PosTy → Option PosTy
  | 0 => normalizeWith fun _ => none
  | fuel + 1 => normalizeWith (normalize fuel)

end FomegaLab.PosTy
