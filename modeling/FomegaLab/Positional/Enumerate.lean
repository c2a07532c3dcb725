-- Listing positional types and terms by size. Each enumeration is the
-- concatenation of one enumeration per constructor, so a search can choose in
-- which order to visit constructors and sizes.
--
-- The recursion is on a bound on the nesting. A value of size `n` nests less
-- than `n` deep, so the bound `n` loses nothing.
import FomegaLab.Positional.Member
import FomegaLab.Split

namespace FomegaLab

/-- Types by scope, kind and size. -/
abbrev TyEnumeration := List Kind → Kind → Nat → List PosTy

/-- Terms by kinds in scope, types in scope, type and size. -/
abbrev TermEnumeration := List Kind → List PosTy → PosTy → Nat → List PosTerm

/-! ## Types, one constructor at a time -/

namespace TyEnumeration

def references : TyEnumeration := fun scope k n =>
  match n with
  | 0 => []
  | i + 1 => if scope[i]? = some k then [.var i] else []

def builtins : TyEnumeration := fun _ k n =>
  if k = .star ∧ n = 1 then Builtin.all.map .builtin else []

def functions (operands : TyEnumeration) : TyEnumeration := fun scope k n =>
  if k = .star then
    (splits 1 (n - 1)).flatMap fun (i, j) =>
      cross .arrow (operands scope .star i) fun _ => operands scope .star j
  else []

def foralls (bodies : TyEnumeration) : TyEnumeration := fun scope k n =>
  if k = .star then
    (splits 1 (n - 1)).flatMap fun (i, j) =>
      (Kind.ofSize i).flatMap fun kind => (bodies (kind :: scope) .star j).map (.all kind)
  else []

def lambdas (bodies : TyEnumeration) : TyEnumeration := fun scope k n =>
  match k with
  | .star => []
  | .arrow argument result => (bodies (argument :: scope) result (n - 1)).map .lam

def applications (functions arguments : TyEnumeration) : TyEnumeration := fun scope k n =>
  (splits 2 (n - 1)).flatMap fun (i, rest) =>
    (Kind.ofSize i).flatMap fun kind =>
      (splits 1 rest).flatMap fun (j, l) =>
        cross (fun f a => .app f a kind) (functions scope (.arrow kind k) j)
          fun _ => arguments scope kind l

/-- The constructors of all types. -/
def plain (types : TyEnumeration) : List TyEnumeration :=
  [references, builtins, functions types, foralls types, lambdas types,
    applications types types]

/-- The constructors of neutral types. -/
def neutral (normals neutrals : TyEnumeration) : List TyEnumeration :=
  [references, applications neutrals normals]

/-- The constructors of normal types. -/
def normal (normals neutrals : TyEnumeration) : List TyEnumeration :=
  [references, builtins, functions normals, foralls normals, lambdas normals,
    applications neutrals normals]

/-- All values of a list of constructors. There is none of size zero. -/
def ofConstructors (constructors : List TyEnumeration) : TyEnumeration := fun scope k n =>
  if n = 0 then [] else constructors.flatMap fun c => c scope k n

end TyEnumeration

namespace PosTy

/-! ## Types -/

def ofSizeWithin : Nat → TyEnumeration
  | 0 => fun _ _ _ => []
  | bound + 1 => .ofConstructors (TyEnumeration.plain (ofSizeWithin bound))

/-- All types of kind `k` and size `n`. -/
def ofSize (scope : List Kind) (k : Kind) (n : Nat) : List PosTy := ofSizeWithin n scope k n

mutual
def normalOfSizeWithin : Nat → TyEnumeration
  | 0 => fun _ _ _ => []
  | bound + 1 =>
    .ofConstructors (TyEnumeration.normal (normalOfSizeWithin bound) (neutralOfSizeWithin bound))

def neutralOfSizeWithin : Nat → TyEnumeration
  | 0 => fun _ _ _ => []
  | bound + 1 =>
    .ofConstructors (TyEnumeration.neutral (normalOfSizeWithin bound) (neutralOfSizeWithin bound))
end

/-- All normal types of kind `k` and size `n`. -/
def normalOfSize (scope : List Kind) (k : Kind) (n : Nat) : List PosTy :=
  normalOfSizeWithin n scope k n

/-- All normal types of kind `k` and size `n` that are headed by a variable. -/
def neutralOfSize (scope : List Kind) (k : Kind) (n : Nat) : List PosTy :=
  neutralOfSizeWithin n scope k n

end PosTy

/-! ## Terms, one constructor at a time -/

namespace TermEnumeration

def references : TermEnumeration := fun _ types type n =>
  match n with
  | 0 => []
  | i + 1 => if types[i]? = some type then [.var i] else []

def constants : TermEnumeration := fun _ _ type n =>
  match type with
  | .builtin b => if n = 1 then b.literals.map .const else []
  | _ => []

def errors : TermEnumeration := fun _ _ _ n => if n = 1 then [.error] else []

def lambdas (terms : TermEnumeration) : TermEnumeration := fun kinds types type n =>
  match type with
  | .arrow argument result => (terms kinds (argument :: types) result (n - 1)).map .lam
  | _ => []

def tyLambdas (terms : TermEnumeration) : TermEnumeration := fun kinds types type n =>
  match type with
  | .all kind body =>
    (terms (kind :: kinds) (types.map fun t => t.shift 1 0) body (n - 1)).map .tyLam
  | _ => []

def applications (terms : TermEnumeration) : TermEnumeration := fun kinds types type n =>
  (splits 2 (n - 1)).flatMap fun (i, rest) =>
    (PosTy.normalOfSize kinds .star i).flatMap fun argumentType =>
      (splits 1 rest).flatMap fun (j, l) =>
        cross (fun f a => .app f a argumentType)
          (terms kinds types (.arrow argumentType type) j)
          fun _ => terms kinds types argumentType l

/-- The instances that have the wanted type are kept, the others are dropped. -/
def instantiations (fuel : Nat) (terms : TermEnumeration) : TermEnumeration :=
  fun kinds types type n =>
    (splits 3 (n - 1)).flatMap fun (i, rest) =>
      (Kind.ofSize i).flatMap fun kind =>
        (splits 2 rest).flatMap fun (j, rest) =>
          let arguments := (splits 1 rest).map fun (l, m) => (PosTy.normalOfSize kinds kind l, m)
          (PosTy.normalOfSize (kind :: kinds) .star j).flatMap fun bodyType =>
            arguments.flatMap fun (argumentTypes, m) =>
              argumentTypes.flatMap fun argumentType =>
                if (bodyType.instantiate argumentType).normalize fuel = some type then
                  (terms kinds types (.all kind bodyType) m).map fun t =>
                    .inst t bodyType argumentType kind
                else []

def constructors (fuel : Nat) (terms : TermEnumeration) : List TermEnumeration :=
  [references, constants, errors, lambdas terms, tyLambdas terms, applications terms,
    instantiations fuel terms]

/-- All values of a list of constructors. There is none of size zero. -/
def ofConstructors (constructors : List TermEnumeration) : TermEnumeration :=
  fun kinds types type n =>
    if n = 0 then [] else constructors.flatMap fun c => c kinds types type n

end TermEnumeration

namespace PosTerm

/-! ## Terms -/

def ofSizeWithin (fuel : Nat) : Nat → TermEnumeration
  | 0 => fun _ _ _ _ => []
  | bound + 1 => .ofConstructors (TermEnumeration.constructors fuel (ofSizeWithin fuel bound))

/-- All terms of type `type` and size `n`. The type and the types in scope are
compared as they are, so they have to be normal. -/
def ofSize (fuel : Nat) (kinds : List Kind) (types : List PosTy) (type : PosTy) (n : Nat) :
    List PosTerm :=
  ofSizeWithin fuel n kinds types type n

end PosTerm

end FomegaLab
