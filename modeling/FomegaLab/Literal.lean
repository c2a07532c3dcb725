-- The builtin types and the constants of the calculus.

namespace FomegaLab

inductive Builtin where
  | unit
  | bool
deriving DecidableEq

namespace Builtin

/-- Both builtin types, in the order in which they are listed everywhere. -/
def all : List Builtin := [unit, bool]

def text : Builtin → String
  | unit => "unit"
  | bool => "bool"

theorem mem_all (b : Builtin) : b ∈ all := by
  cases b <;> simp [all]

end Builtin

/-- A constant claims a builtin type and carries a truth value or nothing. Only
the literals that `Builtin.literals` lists are values of the type they claim. -/
structure Literal where
  builtin : Builtin
  value : Option Bool
deriving DecidableEq

/-- All constants of a builtin type. -/
def Builtin.literals : Builtin → List Literal
  | .unit => [⟨.unit, none⟩]
  | .bool => [⟨.bool, some true⟩, ⟨.bool, some false⟩]

/-- A literal is canonical if its builtin type lists it. -/
def Literal.isCanonical (l : Literal) : Bool := l.builtin.literals.contains l

theorem Literal.isCanonical_iff {l : Literal} : l.isCanonical = true ↔ l ∈ l.builtin.literals :=
  List.contains_iff_mem

end FomegaLab
