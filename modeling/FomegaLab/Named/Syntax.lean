-- Named syntax: the types, typed terms and untyped terms that the checker and
-- the machines work on. Names occur at their binders and at their uses.
import FomegaLab.Kind
import FomegaLab.Literal
import FomegaLab.Name

namespace FomegaLab

inductive Ty where
  | var (name : TyName)
  | arrow (argument result : Ty)
  | all (name : TyName) (kind : Kind) (body : Ty)
  | lam (name : TyName) (kind : Kind) (body : Ty)
  | app (function argument : Ty)
  | builtin (b : Builtin)
deriving DecidableEq

/-- Typed terms. Evaluating `error` is an outcome that a program may choose. -/
inductive Term where
  | var (name : Name)
  | lam (name : Name) (type : Ty) (body : Term)
  | app (function argument : Term)
  | tyLam (name : TyName) (kind : Kind) (body : Term)
  | inst (term : Term) (type : Ty)
  | const (literal : Literal)
  | error (type : Ty)
deriving DecidableEq

/-- Untyped terms. -/
inductive UTerm where
  | var (name : Name)
  | lam (name : Name) (body : UTerm)
  | app (function argument : UTerm)
  | delay (body : UTerm)
  | force (term : UTerm)
  | const (literal : Literal)
  | error
deriving DecidableEq

/-- Drops every type and kind. A type abstraction becomes a delay and an
instantiation a force, so both sides still take the same steps. -/
def Term.erase : Term → UTerm
  | .var x => .var x
  | .lam x _ body => .lam x body.erase
  | .app function argument => .app function.erase argument.erase
  | .tyLam _ _ body => .delay body.erase
  | .inst term _ => .force term.erase
  | .const l => .const l
  | .error _ => .error

/-! ## Size -/

/-- The number of constructors of a type. -/
def Ty.size : Ty → Nat
  | .var _ => 1
  | .arrow argument result => 1 + argument.size + result.size
  | .all _ _ body => 1 + body.size
  | .lam _ _ body => 1 + body.size
  | .app function argument => 1 + function.size + argument.size
  | .builtin _ => 1

/-- The number of constructors of a term, the types in it left out. -/
def Term.size : Term → Nat
  | .var _ => 1
  | .lam _ _ body => 1 + body.size
  | .app function argument => 1 + function.size + argument.size
  | .tyLam _ _ body => 1 + body.size
  | .inst term _ => 1 + term.size
  | .const _ => 1
  | .error _ => 1

end FomegaLab
