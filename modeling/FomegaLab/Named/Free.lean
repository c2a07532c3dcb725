-- Free names. The lists may repeat a name: only membership matters.
import FomegaLab.Named.Syntax

namespace FomegaLab

/-- The type names that are free in a type. -/
def Ty.free : Ty → List TyName
  | .var a => [a]
  | .arrow argument result => argument.free ++ result.free
  | .all a _ body => body.free.filter (· != a)
  | .lam a _ body => body.free.filter (· != a)
  | .app function argument => function.free ++ argument.free
  | .builtin _ => []

/-- The term names that are free in a term. -/
def Term.free : Term → List Name
  | .var x => [x]
  | .lam x _ body => body.free.filter (· != x)
  | .app function argument => function.free ++ argument.free
  | .tyLam _ _ body => body.free
  | .inst term _ => term.free
  | .const _ => []
  | .error _ => []

theorem Term.mem_free_lam {x y : Name} {type : Ty} {body : Term} (hy : y ∈ body.free)
    (hyx : y ≠ x) : y ∈ (lam x type body).free :=
  List.mem_filter.mpr ⟨hy, by simpa using hyx⟩

/-- The type names that are free in a term. -/
def Term.freeTypes : Term → List TyName
  | .var _ => []
  | .lam _ type body => type.free ++ body.freeTypes
  | .app function argument => function.freeTypes ++ argument.freeTypes
  | .tyLam a _ body => body.freeTypes.filter (· != a)
  | .inst term type => term.freeTypes ++ type.free
  | .const _ => []
  | .error type => type.free

/-- The names that are free in an untyped term. -/
def UTerm.free : UTerm → List Name
  | .var x => [x]
  | .lam x body => body.free.filter (· != x)
  | .app function argument => function.free ++ argument.free
  | .delay body => body.free
  | .force term => term.free
  | .const _ => []
  | .error => []

end FomegaLab
