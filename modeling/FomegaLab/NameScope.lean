-- Scopes of names, for turning references into names. A scope holds the name of
-- each binder around a place and the stream of texts that its next names take.
import FomegaLab.Name
import FomegaLab.Scope
import FomegaLab.Word

namespace FomegaLab

/-- The endless texts `x0, x1, x2, …` from a position on. -/
structure NameStream where
  start : String
  position : Int
deriving DecidableEq

namespace NameStream

/-- The stream of all texts that begin with `start`. -/
def ofStart (start : String) : NameStream := ⟨start, 0⟩

def head (s : NameStream) : String := s.start ++ toString s.position

def tail (s : NameStream) : NameStream := { s with position := s.position + 1 }

/-- The first `n` texts. -/
def take : Nat → NameStream → List String
  | 0, _ => []
  | n + 1, s => s.head :: s.tail.take n

end NameStream

/-- The names of the binders in scope, innermost first, and the texts that are
still unused. -/
structure NameScope (ν : Type) where
  names : List ν
  unused : NameStream
deriving DecidableEq

/-- A reference that the scope has no name for. -/
structure OutOfScope where
  index : Int
  size : Nat
deriving DecidableEq

def OutOfScope.message (e : OutOfScope) : String :=
  unlessLong (isLong e.index)
    ("reference " ++ toString e.index ++ " out of scope in a context of size " ++ toString e.size)

namespace NameScope

variable {ν : Type}

/-- No binder is in scope. -/
def empty (unused : NameStream) : NameScope ν := ⟨[], unused⟩

def size (s : NameScope ν) : Nat := s.names.length

/-- Adds a binder whose name is new and takes the next text. -/
def extend [NameSort ν] (s : NameScope ν) : Fresh (ν × NameScope ν) := do
  let name ← fresh s.unused.head
  return (name, ⟨name :: s.names, s.unused.tail⟩)

/-- Adds `n` binders, one after the other. -/
def extendMany [NameSort ν] : Nat → NameScope ν → Fresh (NameScope ν)
  | 0, s => pure s
  | n + 1, s => do
    let (_, s) ← s.extend
    s.extendMany n

/-- The name of the binder that `i` refers to. -/
def nameOf (s : NameScope ν) (i : Int) : Except OutOfScope ν :=
  match Scope.find? s.names i with
  | some name => .ok name
  | none => .error ⟨i, s.size⟩

theorem nameOf_eq_ok_iff {s : NameScope ν} {i : Int} {x : ν} :
    s.nameOf i = .ok x ↔ 0 ≤ i ∧ s.names[i.toNat]? = some x := by
  rw [← Scope.find?_eq_some_iff, nameOf]
  cases Scope.find? s.names i <;> simp

theorem nameOf_of_outside {s : NameScope ν} {i : Int} (h : i < 0 ∨ s.size ≤ i) :
    s.nameOf i = .error ⟨i, s.size⟩ := by
  rw [nameOf, Scope.find?_eq_none_iff.mpr h]

end NameScope

end FomegaLab
