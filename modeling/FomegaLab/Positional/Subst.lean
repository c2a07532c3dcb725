-- Shifting and instantiating positional types.
import FomegaLab.Positional.Syntax

namespace FomegaLab.PosTy

/-- Adds `amount` to every reference at or above `cutoff`. -/
def shift : PosTy → (amount cutoff : Int) → PosTy
  | .var index, amount, cutoff => .var (if cutoff ≤ index then index + amount else index)
  | .arrow argument result, amount, cutoff =>
    .arrow (argument.shift amount cutoff) (result.shift amount cutoff)
  | .all kind body, amount, cutoff => .all kind (body.shift amount (cutoff + 1))
  | .builtin b, _, _ => .builtin b
  | .lam body, amount, cutoff => .lam (body.shift amount (cutoff + 1))
  | .app function argument kind, amount, cutoff =>
    .app (function.shift amount cutoff) (argument.shift amount cutoff) kind

/-- Replaces the reference `depth` and closes the gap that its binder leaves. The
replacement comes from outside of the `depth` binders in between, so it is
shifted over all of them where it lands. -/
def substAt : PosTy → (depth : Int) → (replacement : PosTy) → PosTy
  | .var index, depth, replacement =>
    if index = depth then replacement.shift depth 0
    else if depth < index then .var (index - 1)
    else .var index
  | .arrow argument result, depth, replacement =>
    .arrow (argument.substAt depth replacement) (result.substAt depth replacement)
  | .all kind body, depth, replacement => .all kind (body.substAt (depth + 1) replacement)
  | .builtin b, _, _ => .builtin b
  | .lam body, depth, replacement => .lam (body.substAt (depth + 1) replacement)
  | .app function argument kind, depth, replacement =>
    .app (function.substAt depth replacement) (argument.substAt depth replacement) kind

/-- Instantiates the innermost binder of `body`. -/
def instantiate (body argument : PosTy) : PosTy := body.substAt 0 argument

/-! ## References -/

variable {index cutoff depth : Int}

theorem shift_var_of_le (h : cutoff ≤ index) (amount : Int) :
    (var index).shift amount cutoff = .var (index + amount) := by
  rw [shift, if_pos h]

theorem shift_var_of_lt (h : index < cutoff) (amount : Int) :
    (var index).shift amount cutoff = .var index := by
  rw [shift, if_neg (Int.not_le.mpr h)]

theorem substAt_var_self (depth : Int) (replacement : PosTy) :
    (var depth).substAt depth replacement = replacement.shift depth 0 := by
  rw [substAt, if_pos rfl]

theorem substAt_var_of_gt (h : depth < index) (replacement : PosTy) :
    (var index).substAt depth replacement = .var (index - 1) := by
  rw [substAt, if_neg (Int.ne_of_gt h), if_pos h]

theorem substAt_var_of_lt (h : index < depth) (replacement : PosTy) :
    (var index).substAt depth replacement = .var index := by
  rw [substAt, if_neg (Int.ne_of_lt h), if_neg (Int.not_lt.mpr (Int.le_of_lt h))]

end FomegaLab.PosTy
