-- Positional syntax spelled out field by field, for diagnostics that have to
-- show every detail of a value.
import FomegaLab.Positional.Syntax

namespace FomegaLab

/-- A constructor with its named fields. -/
def spelled (constructor : String) (fields : List (String × String)) : String :=
  constructor ++ "(" ++ ", ".intercalate (fields.map fun f => f.1 ++ "=" ++ f.2) ++ ")"

def Kind.fields : Kind → String
  | .star => spelled "Star" []
  | .arrow argument result =>
    spelled "KindArrow" [("argument", argument.fields), ("result", result.fields)]

def Builtin.fields : Builtin → String
  | .unit => "<BuiltinType.UNIT: 'unit'>"
  | .bool => "<BuiltinType.BOOL: 'bool'>"

def Literal.fields (l : Literal) : String :=
  let value :=
    match l.value with
    | none => "None"
    | some true => "True"
    | some false => "False"
  spelled "Literal" [("builtin", l.builtin.fields), ("value", value)]

def PosTy.fields : PosTy → String
  | .var index => spelled "TyVarG" [("index", toString index)]
  | .arrow argument result =>
    spelled "TyFunG" [("argument", argument.fields), ("result", result.fields)]
  | .all kind body => spelled "TyForallG" [("kind", kind.fields), ("body", body.fields)]
  | .builtin b => spelled "TyBuiltinG" [("builtin", b.fields)]
  | .lam body => spelled "TyLamG" [("body", body.fields)]
  | .app function argument kind =>
    spelled "TyAppG"
      [("function", function.fields), ("argument", argument.fields), ("kind", kind.fields)]

def PosTerm.fields : PosTerm → String
  | .var index => spelled "VarG" [("index", toString index)]
  | .lam body => spelled "LamAbsG" [("body", body.fields)]
  | .app function argument argumentType =>
    spelled "ApplyG"
      [("function", function.fields), ("argument", argument.fields),
        ("argument_type", argumentType.fields)]
  | .tyLam body => spelled "TyAbsG" [("body", body.fields)]
  | .inst term bodyType argumentType kind =>
    spelled "TyInstG"
      [("term", term.fields), ("body_type", bodyType.fields),
        ("argument_type", argumentType.fields), ("kind", kind.fields)]
  | .const literal => spelled "ConstantG" [("literal", literal.fields)]
  | .error => spelled "ErrorG" []

/-- A type that was drawn from the grammar of normal types. -/
def PosTy.fieldsNormal (t : PosTy) : String := spelled "Normalized" [("value", t.fields)]

end FomegaLab
