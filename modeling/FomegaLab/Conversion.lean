-- Giving names to positional syntax. Each binder gets a new name when the
-- conversion reaches it: a binder before what it binds, an annotation before a
-- body, and a function before its argument.
--
-- The kind or type that a value is converted at travels along, since a lambda
-- takes its annotation from it.
import FomegaLab.NameScope
import FomegaLab.Named.Syntax
import FomegaLab.Positional.Reduce

namespace FomegaLab

/-- Why a value does not fit the kind or type it is converted at. -/
inductive Misfit where
  | starAt (type : PosTy) (kind : Kind)
  | boundAt (type : PosTy) (bound expected : Kind)
  | tyLamAtKind (type : PosTy) (kind : Kind)
  | lamAtType (term : PosTerm) (type : PosTy)
  | tyLamAtType (term : PosTerm) (type : PosTy)
  | constAtType (term : PosTerm) (type : PosTy)
  | notAType (value : String)
  | reported (text : String)

/-- Why a conversion fails. Only a misfit says that the value is wrong for its
index; the others mean that a reference leads nowhere, or that the fuel did not
reach a normal form. -/
inductive ConvertError where
  | misfit (m : Misfit)
  | outOfScope (e : OutOfScope)
  | outOfKinds (i : Int)
  | unfinished

/-- Conversion draws a unique per binder. -/
abbrev Convert := ExceptT ConvertError Fresh

/-- The kind that a list of kinds gives to a reference. A reference beyond the
list has none, and a negative one counts from the outermost binder. -/
def referredKind (kinds : List Kind) (i : Int) : Except ConvertError (Option Kind) :=
  if kinds.length ≤ i then .ok none
  else
    match Scope.find? kinds (if i < 0 then i + kinds.length else i) with
    | some k => .ok (some k)
    | none => .error (.outOfKinds i)

namespace Convert

/-- The name that a reference stands for. -/
def nameOf {ν : Type} (scope : NameScope ν) (i : Int) : Convert ν :=
  match scope.nameOf i with
  | .ok name => pure name
  | .error e => throw (.outOfScope e)

/-- Requires that a variable stands at the kind of its binder, if kinds are given. -/
def checkVariable (kinds : Option (List Kind)) (i : Int) (k : Kind) : Convert Unit :=
  match kinds with
  | none => pure ()
  | some kinds =>
    match referredKind kinds i with
    | .error e => throw e
    | .ok none => pure ()
    | .ok (some bound) =>
      if bound = k then pure () else throw (.misfit (.boundAt (.var i) bound k))

/-- Requires that a type stands at `*`. -/
def checkStar (t : PosTy) (k : Kind) : Convert Unit :=
  if k = .star then pure () else throw (.misfit (.starAt t k))

end Convert

/-- Names a type at the kind `k`. Without kinds for the variables in scope, only
their scope is checked. -/
def PosTy.toNamed : NameScope TyName → Option (List Kind) → Kind → PosTy → Convert Ty
  | scope, kinds, k, .var index => do
    Convert.checkVariable kinds index k
    return .var (← Convert.nameOf scope index)
  | scope, kinds, k, .arrow argument result => do
    Convert.checkStar (.arrow argument result) k
    let argument ← argument.toNamed scope kinds .star
    let result ← result.toNamed scope kinds .star
    return .arrow argument result
  | scope, kinds, k, .all kind body => do
    Convert.checkStar (.all kind body) k
    let (a, inner) ← scope.extend
    let body ← body.toNamed inner (kinds.map (kind :: ·)) .star
    return .all a kind body
  | _, _, k, .builtin b => do
    Convert.checkStar (.builtin b) k
    return .builtin b
  | scope, kinds, k, .lam body => do
    match k with
    | .star => throw (.misfit (.tyLamAtKind (.lam body) k))
    | .arrow argument result =>
      let (a, inner) ← scope.extend
      let body ← body.toNamed inner (kinds.map (argument :: ·)) result
      return .lam a argument body
  | scope, kinds, k, .app function argument kind => do
    let function ← function.toNamed scope kinds (.arrow kind k)
    let argument ← argument.toNamed scope kinds kind
    return .app function argument

/-- The normal form of a type, if the fuel reaches it. -/
def Convert.normalForm (fuel : Nat) (t : PosTy) : Convert PosTy :=
  match t.normalize fuel with
  | some t => pure t
  | none => throw .unfinished

/-- Names a term at a type. The names of type variables and of term variables
come from scopes of their own. -/
def PosTerm.toNamed (fuel : Nat) :
    NameScope TyName → NameScope Name → Option (List Kind) → PosTy → PosTerm → Convert Term
  | tyScope, scope, kinds, type, term => do
    let type ← Convert.normalForm fuel type
    match term with
    | .var index => return .var (← Convert.nameOf scope index)
    | .lam body =>
      match type with
      | .arrow argument result =>
        let (x, inner) ← scope.extend
        let declared ← argument.toNamed tyScope kinds .star
        let body ← body.toNamed fuel tyScope inner kinds result
        return .lam x declared body
      | type => throw (.misfit (.lamAtType (.lam body) type))
    | .app function argument argumentType =>
      let function ← function.toNamed fuel tyScope scope kinds (.arrow argumentType type)
      let argument ← argument.toNamed fuel tyScope scope kinds argumentType
      return .app function argument
    | .tyLam body =>
      match type with
      | .all kind bodyType =>
        let (a, inner) ← tyScope.extend
        let body ← body.toNamed fuel inner scope (kinds.map (kind :: ·)) bodyType
        return .tyLam a kind body
      | type => throw (.misfit (.tyLamAtType (.tyLam body) type))
    | .inst term bodyType argumentType kind =>
      let term ← term.toNamed fuel tyScope scope kinds (.all kind bodyType)
      let argument ← argumentType.toNamed tyScope kinds kind
      return .inst term argument
    | .const literal =>
      if type = .builtin literal.builtin then return .const literal
      else throw (.misfit (.constAtType (.const literal) type))
    | .error => return .error (← type.toNamed tyScope kinds .star)

/-- Names a closed type. -/
def PosTy.toNamedClosed (tyTexts : NameStream) (k : Kind) (t : PosTy) : Convert Ty :=
  t.toNamed (.empty tyTexts) (some []) k

/-- Names a closed term. -/
def PosTerm.toNamedClosed (fuel : Nat) (tyTexts texts : NameStream) (type : PosTy)
    (t : PosTerm) : Convert Term :=
  t.toNamed fuel (.empty tyTexts) (.empty texts) (some []) type

end FomegaLab
