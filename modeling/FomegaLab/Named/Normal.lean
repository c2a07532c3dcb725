-- Beta normalization of named types. As for positional types, fuel bounds how
-- deeply contractions may be nested. Contracting draws uniques, since the
-- substitution may rename binders.
import FomegaLab.Named.Subst

namespace FomegaLab.Ty

/-- Normalizes the parts first, and leaves a contracted redex to `contracted`. -/
def normalizeWith (contracted : Ty → OptionT Fresh Ty) : Ty → OptionT Fresh Ty
  | .var a => pure (.var a)
  | .builtin b => pure (.builtin b)
  | .arrow argument result => do
    let argument ← argument.normalizeWith contracted
    let result ← result.normalizeWith contracted
    return .arrow argument result
  | .all a kind body => do
    let body ← body.normalizeWith contracted
    return .all a kind body
  | .lam a kind body => do
    let body ← body.normalizeWith contracted
    return .lam a kind body
  | .app function argument => do
    let function ← function.normalizeWith contracted
    let argument ← argument.normalizeWith contracted
    match function with
    | .lam a _ body =>
      let body ← body.subst a argument
      contracted body
    | function => return .app function argument

/-- The beta-normal form, or nothing if the fuel runs out first. -/
def normalize : Nat → Ty → OptionT Fresh Ty
  | 0 => normalizeWith fun _ => failure
  | fuel + 1 => normalizeWith (normalize fuel)

/-- No redex anywhere. -/
def isNormal : Ty → Bool
  | .var _ => true
  | .builtin _ => true
  | .arrow argument result => argument.isNormal && result.isNormal
  | .all _ _ body => body.isNormal
  | .lam _ _ body => body.isNormal
  | .app (.lam _ _ _) _ => false
  | .app function argument => function.isNormal && argument.isNormal

end FomegaLab.Ty
