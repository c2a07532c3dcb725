-- The wording of what goes wrong in conversion and in checking.
import FomegaLab.Conversion
import FomegaLab.Named.Kinding
import FomegaLab.Text.Fields
import FomegaLab.Text.Pretty
import FomegaLab.Word

namespace FomegaLab

def Misfit.message : Misfit → String
  | .starAt type kind =>
    type.fields ++ " is of kind * but was expected at kind " ++ kind.fields
  | .boundAt type bound expected =>
    type.fields ++ " is bound at kind " ++ bound.fields ++ " but was expected at kind "
      ++ expected.fields
  | .tyLamAtKind type kind =>
    "type lambda " ++ type.fields ++ " expected at non-arrow kind " ++ kind.fields
  | .lamAtType term type =>
    "lambda " ++ term.fields ++ " expected at non-function type " ++ type.fields
  | .tyLamAtType term type =>
    "type abstraction " ++ term.fields ++ " expected at non-forall type " ++ type.fields
  | .constAtType term type => "constant " ++ term.fields ++ " expected at type " ++ type.fields
  | .notAType value => "Not a generated type: " ++ value
  | .reported text => text

def ConvertError.message : ConvertError → String
  | .misfit m => m.message
  | .outOfScope e => e.message
  | .outOfKinds i =>
    if isWord i then "tuple index out of range"
    else "cannot fit 'int' into an index-sized integer"
  | .unfinished => "normalization ran out of fuel"

/-- Types and terms in messages look as they do by default. -/
def TypeFault.message : TypeFault → String
  | .kindMismatch type expected actual =>
    type.pretty .default ++ " has kind " ++ actual.pretty ++ ", expected " ++ expected.pretty
  | .typeMismatch term expected actual =>
    term.pretty .default ++ " has type " ++ actual.pretty .default ++ ", expected "
      ++ expected.pretty .default
  | .appliedType function kind =>
    function.pretty .default ++ " of kind " ++ kind.pretty ++ " is applied to a type"
  | .appliedTerm function type =>
    function.pretty .default ++ " of non-function type " ++ type.pretty .default ++ " is applied"
  | .instantiated term type =>
    term.pretty .default ++ " of non-forall type " ++ type.pretty .default ++ " is instantiated"
  | .noConstants b => "no constants of builtin type " ++ b.text
  | .freeTyVar name => unlessLong (isLong name.unique) ("free type variable " ++ name.full)
  | .freeVar name => unlessLong (isLong name.unique) ("free variable " ++ name.full)
  | .reported text => text

end FomegaLab
