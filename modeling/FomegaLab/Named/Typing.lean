-- Type inference for named terms. Inferred types are normal, and types are
-- compared up to bound names.
import FomegaLab.Named.Alpha
import FomegaLab.Named.Kinding
import FomegaLab.Named.Normal

namespace FomegaLab

/-- Why no type is inferred: the term has a fault, or the fuel did not reach a
normal form. -/
inductive TypeError where
  | fault (f : TypeFault)
  | unfinished

/-- The kind of each builtin type that constants may have. -/
abbrev BuiltinKinds := Builtin → Option Kind

/-- Constants of every builtin type, at kind `*`. -/
def BuiltinKinds.default : BuiltinKinds := fun _ => some .star

/-- The checks draw uniques, because normalization does. -/
abbrev Typing := ExceptT TypeError Fresh

/-- A failed kind check is a fault of the term. -/
def Typing.ofKinding {α : Type} : Except TypeFault α → Typing α
  | .ok a => pure a
  | .error f => throw (.fault f)

/-- The normal form of a type, if the fuel reaches it. -/
def Typing.normalForm (fuel : Nat) (t : Ty) : Typing Ty := do
  match ← (t.normalize fuel).run with
  | some t => return t
  | none => throw .unfinished

/-- The normal type of a term, from the kinds and the normal types in scope. -/
def Term.inferType (fuel : Nat) (builtins : BuiltinKinds) :
    Bindings TyName Kind → Bindings Name Ty → Term → Typing Ty
  | _, types, .var x =>
    match types.lookup x with
    | some t => pure t
    | none => throw (.fault (.freeVar x))
  | kinds, types, .lam x declared body => do
    .ofKinding (declared.checkKind kinds .star)
    let argument ← .normalForm fuel declared
    let result ← body.inferType fuel builtins kinds ((x, argument) :: types)
    return .arrow argument result
  | kinds, types, .app function argument => do
    match ← function.inferType fuel builtins kinds types with
    | .arrow expected result =>
      let actual ← argument.inferType fuel builtins kinds types
      if actual.alphaEq expected then return result
      else throw (.fault (.typeMismatch argument expected actual))
    | functionType => throw (.fault (.appliedTerm function functionType))
  | kinds, types, .tyLam a kind body => do
    let bodyType ← body.inferType fuel builtins ((a, kind) :: kinds) types
    return .all a kind bodyType
  | kinds, types, .inst term argument => do
    match ← term.inferType fuel builtins kinds types with
    | .all a kind body =>
      .ofKinding (argument.checkKind kinds kind)
      let argument ← .normalForm fuel argument
      let body ← body.subst a argument
      .normalForm fuel body
    | termType => throw (.fault (.instantiated term termType))
  | _, _, .const l =>
    if builtins l.builtin = some .star then pure (.builtin l.builtin)
    else throw (.fault (.noConstants l.builtin))
  | kinds, _, .error declared => do
    .ofKinding (declared.checkKind kinds .star)
    .normalForm fuel declared

/-- Requires that a closed term has the normal type `expected`. -/
def Term.checkType (fuel : Nat) (builtins : BuiltinKinds) (t : Term) (expected : Ty) :
    Typing Unit := do
  let actual ← t.inferType fuel builtins [] []
  if actual.alphaEq expected then return ()
  else throw (.fault (.typeMismatch t expected actual))

end FomegaLab
