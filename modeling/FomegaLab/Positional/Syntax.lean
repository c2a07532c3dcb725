-- Positional syntax: types and terms that refer to binders by distance. The
-- enumerations produce this form, because it has one value per program.
--
-- A lambda does not say what it takes, since the kind or type it stands at says
-- so. An application does say the kind or type of its argument, which cannot be
-- read off the whole.
import FomegaLab.Kind
import FomegaLab.Literal

namespace FomegaLab

inductive PosTy where
  | var (index : Int)
  | arrow (argument result : PosTy)
  | all (kind : Kind) (body : PosTy)
  | builtin (b : Builtin)
  | lam (body : PosTy)
  | app (function argument : PosTy) (kind : Kind)
deriving DecidableEq

/-- In `inst term bodyType argumentType kind`, the term has the type
`all kind bodyType` and is instantiated at `argumentType`. -/
inductive PosTerm where
  | var (index : Int)
  | lam (body : PosTerm)
  | app (function argument : PosTerm) (argumentType : PosTy)
  | tyLam (body : PosTerm)
  | inst (term : PosTerm) (bodyType argumentType : PosTy) (kind : Kind)
  | const (literal : Literal)
  | error
deriving DecidableEq

/-! ## Size

Size stands for program size: a constructor counts one, a reference counts its
distance plus one, and the kinds and types inside a value count too. A negative
reference makes a size that is not positive, so sizes are integers. -/

def PosTy.size : PosTy → Int
  | .var index => index + 1
  | .arrow argument result => 1 + argument.size + result.size
  | .all kind body => 1 + kind.size + body.size
  | .builtin _ => 1
  | .lam body => 1 + body.size
  | .app function argument kind => 1 + function.size + argument.size + kind.size

def PosTerm.size : PosTerm → Int
  | .var index => index + 1
  | .lam body => 1 + body.size
  | .app function argument argumentType =>
    1 + function.size + argument.size + argumentType.size
  | .tyLam body => 1 + body.size
  | .inst term bodyType argumentType kind =>
    1 + term.size + bodyType.size + argumentType.size + kind.size
  | .const _ => 1
  | .error => 1

end FomegaLab
