-- Putting terms for the free names of an untyped term, all at once.
import FomegaLab.Named.Syntax

namespace FomegaLab

/-- Puts the terms that `env` gives for the names that are neither in `bound` nor
bound inside. No binder is renamed, so this is a substitution only if the terms
that are put in have no free names. -/
def UTerm.close (env : Name → Option UTerm) : (bound : List Name) → UTerm → UTerm
  | bound, .var x => if x ∈ bound then .var x else (env x).getD (.var x)
  | bound, .lam x body => .lam x (body.close env (x :: bound))
  | bound, .app function argument =>
    .app (function.close env bound) (argument.close env bound)
  | bound, .delay body => .delay (body.close env bound)
  | bound, .force term => .force (term.close env bound)
  | _, .const l => .const l
  | _, .error => .error

end FomegaLab
