-- Kind inference for named types. It fails at the first fault it meets, and the
-- fault says what was found there; the wording comes later.
import FomegaLab.Named.Syntax

namespace FomegaLab

/-- Names in scope with what they stand for, newest first: a new binder hides an
older one of the same name. -/
abbrev Bindings (ν α : Type) := List (ν × α)

/-- What is wrong with a type or a term. -/
inductive TypeFault where
  | kindMismatch (type : Ty) (expected actual : Kind)
  | typeMismatch (term : Term) (expected actual : Ty)
  | appliedType (function : Ty) (kind : Kind)
  | appliedTerm (function : Term) (type : Ty)
  | instantiated (term : Term) (type : Ty)
  | noConstants (b : Builtin)
  | freeTyVar (name : TyName)
  | freeVar (name : Name)
  | reported (text : String)

/-- Requires that the kind found for a type is the expected one. -/
def Ty.expectKind (t : Ty) (expected actual : Kind) : Except TypeFault Unit :=
  if actual = expected then .ok () else .error (.kindMismatch t expected actual)

/-- The kind of a type, from the kinds of the names in scope. -/
def Ty.inferKind : Bindings TyName Kind → Ty → Except TypeFault Kind
  | scope, .var a =>
    match scope.lookup a with
    | some k => .ok k
    | none => .error (.freeTyVar a)
  | scope, .arrow argument result => do
    argument.expectKind .star (← argument.inferKind scope)
    result.expectKind .star (← result.inferKind scope)
    return .star
  | scope, .all a kind body => do
    body.expectKind .star (← body.inferKind ((a, kind) :: scope))
    return .star
  | scope, .lam a kind body => do
    return .arrow kind (← body.inferKind ((a, kind) :: scope))
  | scope, .app function argument => do
    match ← function.inferKind scope with
    | .arrow expected result =>
      argument.expectKind expected (← argument.inferKind scope)
      return result
    | .star => throw (.appliedType function .star)
  | _, .builtin _ => .ok .star

/-- Requires that a type has the kind `k`. -/
def Ty.checkKind (scope : Bindings TyName Kind) (t : Ty) (k : Kind) : Except TypeFault Unit := do
  t.expectKind k (← t.inferKind scope)

end FomegaLab
