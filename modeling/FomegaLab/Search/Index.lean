-- The families of positional values that properties are checked on: closed types
-- of a kind, closed normal types of a kind, and closed terms of a type.
import FomegaLab.Positional.Enumerate
import FomegaLab.Search.Visits
import FomegaLab.Text.Fields
import FomegaLab.Text.Shown

namespace FomegaLab

/-- A value of one of the families. -/
inductive Sample where
  | type (t : PosTy)
  | normalType (t : PosTy)
  | term (t : PosTerm)
deriving DecidableEq

namespace Sample

def size : Sample → Int
  | type t => t.size
  | normalType t => t.size
  | term t => t.size

def shown : Sample → String
  | type t => t.shown
  | normalType t => t.shownNormal
  | term t => t.shown

def fields : Sample → String
  | type t => t.fields
  | normalType t => t.fieldsNormal
  | term t => t.fields

end Sample

inductive Index where
  | typesOfKind (k : Kind)
  | normalTypesOfKind (k : Kind)
  | termsOfType (type : PosTy)
deriving DecidableEq

namespace Index

/-- Whether a value belongs to a family, which only values of its sort do. -/
def contains (fuel : Nat) : Index → Sample → Bool
  | typesOfKind k, .type t => t.hasKind [] k
  | normalTypesOfKind k, .normalType t => t.hasKind [] k && t.isNormal
  | termsOfType type, .term t => type.hasKind [] .star && t.hasType fuel [] [] type
  | _, _ => false

/-- The enumerations of types under one constructor each, by size. -/
def typeConstructors (k : Kind) (make : PosTy → Sample) (constructors : List TyEnumeration) :
    List (Nat → List Sample) :=
  constructors.map fun c n => (c [] k n).map make

/-- One enumeration by size for each constructor. The values are listed at the
normal form of the type; without a normal form there are none. -/
def constructors (fuel : Nat) : Index → List (Nat → List Sample)
  | typesOfKind k => typeConstructors k .type (TyEnumeration.plain PosTy.ofSize)
  | normalTypesOfKind k =>
    typeConstructors k .normalType (TyEnumeration.normal PosTy.normalOfSize PosTy.neutralOfSize)
  | termsOfType type =>
    match type.normalize fuel with
    | none => []
    | some type =>
      (TermEnumeration.constructors fuel (PosTerm.ofSize fuel)).map fun c n =>
        (c [] [] type n).map .term

def family (fuel : Nat) (index : Index) : Family Sample :=
  ⟨index.constructors fuel, index.contains fuel⟩

/-- The name of the family. -/
def title : Index → String
  | typesOfKind _ => "ClosedTypesOfKind"
  | normalTypesOfKind _ => "NormalizedTypesOfKind"
  | termsOfType _ => "ClosedTermsOfType"

def fields (index : Index) : String :=
  match index with
  | typesOfKind k => spelled index.title [("kind", k.fields)]
  | normalTypesOfKind k => spelled index.title [("kind", k.fields)]
  | termsOfType type => spelled index.title [("type_g", type.fields)]

end Index

def Strategy.fields : Strategy → String
  | .sized => "<SearchStrategy.SIZED: 1>"
  | .depthFirst => "<SearchStrategy.DEPTH_FIRST: 2>"

def SearchOptions.fields (options : SearchOptions) : String :=
  spelled "GenOptions"
    [("depth", toString options.depth), ("strategy", options.strategy.fields),
      ("max_examples", match options.cap with
        | none => "None"
        | some cap => toString cap)]

end FomegaLab
