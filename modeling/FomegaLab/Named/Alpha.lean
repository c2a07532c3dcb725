-- Equality of named syntax up to the choice of bound names. A bound name counts
-- as the level of the binder it belongs to, a free name as itself.
import FomegaLab.Named.Syntax

namespace FomegaLab

/-- The levels of the binders in scope, newest first, so that a new binder hides
an older one of the same name. -/
abbrev Levels (ν : Type) := List (ν × Nat)

/-- Two occurrences agree if binders of one level bind them, or if both are free
and the names are the same. -/
def Levels.agree {ν : Type} [DecidableEq ν] (lefts rights : Levels ν) (x y : ν) : Bool :=
  match lefts.lookup x, rights.lookup y with
  | none, none => x == y
  | i, j => i == j

/-- Equality of two types under binders. A new binder takes the level `level`. -/
def Ty.alphaEqIn (lefts rights : Levels TyName) (level : Nat) : Ty → Ty → Bool
  | .var a, .var b => Levels.agree lefts rights a b
  | .arrow s t, .arrow s' t' =>
    s.alphaEqIn lefts rights level s' && t.alphaEqIn lefts rights level t'
  | .all a k body, .all a' k' body' =>
    k == k' && body.alphaEqIn ((a, level) :: lefts) ((a', level) :: rights) (level + 1) body'
  | .lam a k body, .lam a' k' body' =>
    k == k' && body.alphaEqIn ((a, level) :: lefts) ((a', level) :: rights) (level + 1) body'
  | .app f t, .app f' t' =>
    f.alphaEqIn lefts rights level f' && t.alphaEqIn lefts rights level t'
  | .builtin b, .builtin b' => b == b'
  | _, _ => false

/-- The binders of types and of terms in scope on one side of a comparison. -/
structure TermLevels where
  types : Levels TyName
  terms : Levels Name

def TermLevels.none : TermLevels := ⟨[], []⟩

/-- Binders of both sorts take their levels from one count. -/
def Term.alphaEqIn (lefts rights : TermLevels) (level : Nat) : Term → Term → Bool
  | .var x, .var y => Levels.agree lefts.terms rights.terms x y
  | .lam x type body, .lam x' type' body' =>
    type.alphaEqIn lefts.types rights.types level type'
      && body.alphaEqIn { lefts with terms := (x, level) :: lefts.terms }
          { rights with terms := (x', level) :: rights.terms } (level + 1) body'
  | .app f t, .app f' t' =>
    f.alphaEqIn lefts rights level f' && t.alphaEqIn lefts rights level t'
  | .tyLam a k body, .tyLam a' k' body' =>
    k == k'
      && body.alphaEqIn { lefts with types := (a, level) :: lefts.types }
          { rights with types := (a', level) :: rights.types } (level + 1) body'
  | .inst term type, .inst term' type' =>
    type.alphaEqIn lefts.types rights.types level type'
      && term.alphaEqIn lefts rights level term'
  | .const l, .const l' => l == l'
  | .error type, .error type' => type.alphaEqIn lefts.types rights.types level type'
  | _, _ => false

def UTerm.alphaEqIn (lefts rights : Levels Name) (level : Nat) : UTerm → UTerm → Bool
  | .var x, .var y => Levels.agree lefts rights x y
  | .lam x body, .lam x' body' =>
    body.alphaEqIn ((x, level) :: lefts) ((x', level) :: rights) (level + 1) body'
  | .app f t, .app f' t' =>
    f.alphaEqIn lefts rights level f' && t.alphaEqIn lefts rights level t'
  | .delay body, .delay body' => body.alphaEqIn lefts rights level body'
  | .force term, .force term' => term.alphaEqIn lefts rights level term'
  | .const l, .const l' => l == l'
  | .error, .error => true
  | _, _ => false

/-- Two types are equal up to bound names. -/
def Ty.alphaEq (s t : Ty) : Bool := s.alphaEqIn [] [] 0 t

/-- Two terms are equal up to bound names of both sorts. -/
def Term.alphaEq (s t : Term) : Bool := s.alphaEqIn .none .none 0 t

/-- Two untyped terms are equal up to bound names. -/
def UTerm.alphaEq (s t : UTerm) : Bool := s.alphaEqIn [] [] 0 t

end FomegaLab
