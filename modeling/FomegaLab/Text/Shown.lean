-- Positional syntax shown constructor by constructor. It has no names to print,
-- so each value is its constructor with its parts, in parentheses. Equal texts
-- come from equal values.
import FomegaLab.Positional.Syntax
import FomegaLab.Text.Pretty

namespace FomegaLab

/-- A constructor with the texts of its parts. -/
def shownParts (constructor : String) (parts : List String) : String :=
  "(" ++ " ".intercalate (constructor :: parts) ++ ")"

def Kind.shown : Kind → String
  | .star => "*"
  | .arrow argument result => "(" ++ argument.shown ++ " -> " ++ result.shown ++ ")"

def PosTy.shown : PosTy → String
  | .var index => shownParts "TyVarG" [toString index]
  | .arrow argument result => shownParts "TyFunG" [argument.shown, result.shown]
  | .all kind body => shownParts "TyForallG" [kind.shown, body.shown]
  | .builtin b => shownParts "TyBuiltinG" [b.text]
  | .lam body => shownParts "TyLamG" [body.shown]
  | .app function argument kind =>
    shownParts "TyAppG" [function.shown, argument.shown, kind.shown]

def PosTerm.shown : PosTerm → String
  | .var index => shownParts "VarG" [toString index]
  | .lam body => shownParts "LamAbsG" [body.shown]
  | .app function argument argumentType =>
    shownParts "ApplyG" [function.shown, argument.shown, argumentType.shown]
  | .tyLam body => shownParts "TyAbsG" [body.shown]
  | .inst term bodyType argumentType kind =>
    shownParts "TyInstG" [term.shown, bodyType.shown, argumentType.shown, kind.shown]
  | .const literal => shownParts "ConstantG" [literal.text]
  | .error => "ErrorG"

/-- A type that was drawn from the grammar of normal types. -/
def PosTy.shownNormal (t : PosTy) : String := shownParts "Normalized" [t.shown]

/-- A part of a value is no positional syntax, so the value cannot be shown. The part is
given as it is spelled out. -/
structure NotSyntax where
  part : String
deriving DecidableEq

def NotSyntax.message (e : NotSyntax) : String := "Not generated syntax: " ++ e.part

end FomegaLab
