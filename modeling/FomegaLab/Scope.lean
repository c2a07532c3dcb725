-- Scopes: what the binders around a place hold, innermost first. A reference
-- is a distance to a binder, so it may be any integer, but only the distances
-- below the length of the scope mean something.
import FomegaLab.Word

namespace FomegaLab.Scope

variable {α : Type}

/-- What the reference `i` means in a scope, if it means anything. -/
def find? (scope : List α) (i : Int) : Option α :=
  match i with
  | .ofNat n => scope[n]?
  | .negSucc _ => none

theorem find?_eq_some_iff {scope : List α} {i : Int} {a : α} :
    find? scope i = some a ↔ 0 ≤ i ∧ scope[i.toNat]? = some a := by
  cases i with
  | ofNat n => simp [find?]
  | negSucc n => simp [find?]

theorem find?_eq_none_iff {scope : List α} {i : Int} :
    find? scope i = none ↔ i < 0 ∨ scope.length ≤ i := by
  cases i with
  | ofNat n =>
    rw [find?, List.getElem?_eq_none_iff, Int.ofNat_eq_natCast]
    omega
  | negSucc n => simp [find?, Int.negSucc_lt_zero]

/-- A reference that reaches past the last binder. -/
structure Unreachable where
  index : Int
deriving DecidableEq

/-- Nothing refers into the empty scope. The reference is given as it is shown. -/
def unreachable (reference : String) : String :=
  "unreachable: reference " ++ reference ++ " into the empty context"

def Unreachable.message (e : Unreachable) : String :=
  unlessLong (isLong e.index) (unreachable (toString e.index))

/-- The value that `i` refers to. A reference that leaves the scope is reported
as it was given. -/
def lookup (scope : List α) (i : Int) : Except Unreachable α :=
  match find? scope i with
  | some a => .ok a
  | none => .error ⟨i⟩

end FomegaLab.Scope
