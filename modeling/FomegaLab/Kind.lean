-- Kinds classify types as types classify terms. This module holds the kinds,
-- their size, and the list of all kinds of one size.
import FomegaLab.Split

namespace FomegaLab

/-- A kind is `*`, the kind of the types that classify terms, or an arrow. -/
inductive Kind where
  | star
  | arrow (argument result : Kind)
deriving DecidableEq

namespace Kind

/-- Every constructor counts one. -/
def size : Kind → Nat
  | star => 1
  | arrow argument result => 1 + argument.size + result.size

theorem size_pos (k : Kind) : 1 ≤ k.size := by
  cases k <;> grind [size]

/-- The kinds of size `n`, as far as `bound` levels of arrows reach. -/
def ofSizeWithin : Nat → Nat → List Kind
  | 0, _ => []
  | bound + 1, n =>
    if n = 1 then [star]
    else (splits 1 (n - 1)).flatMap fun (i, j) =>
      cross arrow (ofSizeWithin bound i) fun _ => ofSizeWithin bound j

/-- All kinds of size `n`, those with a smaller argument first. -/
def ofSize (n : Nat) : List Kind := ofSizeWithin n n

end Kind

end FomegaLab
