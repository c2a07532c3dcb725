-- Substitution in named syntax. A binder that would capture a free name of the
-- replacement gets a new name first, drawn from the supply of uniques.
--
-- Renaming a binder is a substitution of its own in the body, and it may rename
-- further binders, so the recursion is not on the body itself. It is on a bound
-- on the size, which renaming keeps.
import FomegaLab.Named.Free

namespace FomegaLab

/-! ## Types in types -/

/-- Substitution in a type of a size up to the bound. No binder with a name in
`captured` is entered without a new name. -/
def Ty.substWithin :
    Nat → (captured : List TyName) → (a : TyName) → (replacement : Ty) → Ty → Fresh Ty
  | 0, _, _, _, t => pure t
  | _ + 1, _, a, replacement, .var b => pure (if b = a then replacement else .var b)
  | n + 1, captured, a, replacement, .arrow argument result => do
    let argument ← substWithin n captured a replacement argument
    let result ← substWithin n captured a replacement result
    return .arrow argument result
  | n + 1, captured, a, replacement, .all b kind body =>
    if b = a then pure (.all b kind body)
    else if b ∈ captured then do
      let c ← fresh b.text
      let body ← substWithin n [c] b (.var c) body
      let body ← substWithin n captured a replacement body
      return .all c kind body
    else do
      let body ← substWithin n captured a replacement body
      return .all b kind body
  | n + 1, captured, a, replacement, .lam b kind body =>
    if b = a then pure (.lam b kind body)
    else if b ∈ captured then do
      let c ← fresh b.text
      let body ← substWithin n [c] b (.var c) body
      let body ← substWithin n captured a replacement body
      return .lam c kind body
    else do
      let body ← substWithin n captured a replacement body
      return .lam b kind body
  | n + 1, captured, a, replacement, .app function argument => do
    let function ← substWithin n captured a replacement function
    let argument ← substWithin n captured a replacement argument
    return .app function argument
  | _ + 1, _, _, _, .builtin b => pure (.builtin b)

/-- Puts `replacement` for the free occurrences of `a`. -/
def Ty.subst (t : Ty) (a : TyName) (replacement : Ty) : Fresh Ty :=
  substWithin t.size replacement.free a replacement t

/-! ## Types in terms -/

def Term.substTypeWithin :
    Nat → (captured : List TyName) → (a : TyName) → (replacement : Ty) → Term → Fresh Term
  | 0, _, _, _, t => pure t
  | _ + 1, _, _, _, .var x => pure (.var x)
  | n + 1, captured, a, replacement, .lam x type body => do
    let type ← type.subst a replacement
    let body ← substTypeWithin n captured a replacement body
    return .lam x type body
  | n + 1, captured, a, replacement, .app function argument => do
    let function ← substTypeWithin n captured a replacement function
    let argument ← substTypeWithin n captured a replacement argument
    return .app function argument
  | n + 1, captured, a, replacement, .tyLam b kind body =>
    if b = a then pure (.tyLam b kind body)
    else if b ∈ captured then do
      let c ← fresh b.text
      let body ← substTypeWithin n [c] b (.var c) body
      let body ← substTypeWithin n captured a replacement body
      return .tyLam c kind body
    else do
      let body ← substTypeWithin n captured a replacement body
      return .tyLam b kind body
  | n + 1, captured, a, replacement, .inst term type => do
    let term ← substTypeWithin n captured a replacement term
    let type ← type.subst a replacement
    return .inst term type
  | _ + 1, _, _, _, .const l => pure (.const l)
  | _ + 1, _, a, replacement, .error type => do
    let type ← type.subst a replacement
    return .error type

/-- Puts the type `replacement` for the free occurrences of `a`. -/
def Term.substType (t : Term) (a : TyName) (replacement : Ty) : Fresh Term :=
  substTypeWithin t.size replacement.free a replacement t

/-! ## Terms in terms -/

/-- Binders of both sorts can capture: term binders the names in `captured` and
type binders the names in `capturedTypes`. -/
def Term.substWithin :
    Nat → (captured : List Name) → (capturedTypes : List TyName) → (x : Name) →
      (replacement : Term) → Term → Fresh Term
  | 0, _, _, _, _, t => pure t
  | _ + 1, _, _, x, replacement, .var y => pure (if y = x then replacement else .var y)
  | n + 1, captured, capturedTypes, x, replacement, .lam y type body =>
    if y = x then pure (.lam y type body)
    else if y ∈ captured then do
      let z ← fresh y.text
      let body ← substWithin n [z] [] y (.var z) body
      let body ← substWithin n captured capturedTypes x replacement body
      return .lam z type body
    else do
      let body ← substWithin n captured capturedTypes x replacement body
      return .lam y type body
  | n + 1, captured, capturedTypes, x, replacement, .app function argument => do
    let function ← substWithin n captured capturedTypes x replacement function
    let argument ← substWithin n captured capturedTypes x replacement argument
    return .app function argument
  | n + 1, captured, capturedTypes, x, replacement, .tyLam b kind body =>
    if b ∈ capturedTypes then do
      let c ← fresh b.text
      let body ← body.substType b (.var c)
      let body ← substWithin n captured capturedTypes x replacement body
      return .tyLam c kind body
    else do
      let body ← substWithin n captured capturedTypes x replacement body
      return .tyLam b kind body
  | n + 1, captured, capturedTypes, x, replacement, .inst term type => do
    let term ← substWithin n captured capturedTypes x replacement term
    return .inst term type
  | _ + 1, _, _, _, _, .const l => pure (.const l)
  | _ + 1, _, _, _, _, .error type => pure (.error type)

/-- Puts the term `replacement` for the free occurrences of `x`. -/
def Term.subst (t : Term) (x : Name) (replacement : Term) : Fresh Term :=
  substWithin t.size replacement.free replacement.freeTypes x replacement t

end FomegaLab
