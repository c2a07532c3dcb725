-- Runs of computations that draw uniques and may fail. Every run starts with a
-- supply and leaves one, and a sequence of computations succeeds exactly if each
-- of them succeeds on the supply that the one before left.
import FomegaLab.Name

namespace FomegaLab

theorem bind_eq_ok {α β ε : Type} {x : Except ε α} {f : α → Except ε β} {b : β} :
    (x >>= f) = .ok b ↔ ∃ a, x = .ok a ∧ f a = .ok b := by
  constructor
  · intro h
    cases x with
    | error e => cases h
    | ok a => exact ⟨a, rfl, h⟩
  · rintro ⟨a, rfl, h⟩
    exact h

theorem bind_eq_error {α β ε : Type} {x : Except ε α} {f : α → Except ε β} {e : ε} :
    (x >>= f) = .error e ↔ x = .error e ∨ ∃ a, x = .ok a ∧ f a = .error e := by
  cases x with
  | error e' =>
    change Except.error e' = .error e ↔ _
    simp
  | ok a =>
    change f a = .error e ↔ _
    simp

namespace Fresh

variable {α β ε : Type} {n m : Int}

/-! ## Computations that may give nothing -/

@[simp] theorem run_pure_eq_some {a b : α} :
    (pure a : OptionT Fresh α).run n = (some b, m) ↔ a = b ∧ n = m := by
  change (some a, n) = (some b, m) ↔ _
  simp

@[simp] theorem run_failure_ne_some {b : α} :
    (failure : OptionT Fresh α).run n ≠ (some b, m) := by
  intro h
  change (none, n) = (some b, m) at h
  cases h

theorem run_bind_eq_some {x : OptionT Fresh α} {f : α → OptionT Fresh β} {b : β} :
    (x >>= f).run n = (some b, m) ↔
      ∃ a k, x.run n = (some a, k) ∧ (f a).run k = (some b, m) := by
  rw [OptionT.run_bind, Option.elimM, Fresh.bind_apply]
  obtain ⟨o, k⟩ := x.run n
  constructor
  · intro h
    cases o with
    | none => cases h
    | some a => exact ⟨a, k, rfl, h⟩
  · rintro ⟨a, k, ha, h⟩
    cases ha
    exact h

theorem run_lift_eq_some {x : Fresh α} {b : α} :
    (liftM x : OptionT Fresh α).run n = (some b, m) ↔ x n = (b, m) := by
  change (some (x n).1, (x n).2) = (some b, m) ↔ _
  constructor
  · intro h
    cases h
    rfl
  · intro h
    rw [h]

/-! ## Computations that may fail with a reason -/

@[simp] theorem run_pure_eq_ok {a b : α} :
    (pure a : ExceptT ε Fresh α).run n = (.ok b, m) ↔ a = b ∧ n = m := by
  change (Except.ok a, n) = (.ok b, m) ↔ _
  simp

@[simp] theorem run_throw_ne_ok {e : ε} {b : α} :
    (throw e : ExceptT ε Fresh α).run n ≠ (.ok b, m) := by
  intro h
  change (Except.error e, n) = (.ok b, m) at h
  cases h

theorem run_bind_eq_ok {x : ExceptT ε Fresh α} {f : α → ExceptT ε Fresh β} {b : β} :
    (x >>= f).run n = (.ok b, m) ↔
      ∃ a k, x.run n = (.ok a, k) ∧ (f a).run k = (.ok b, m) := by
  rw [ExceptT.run_bind, Fresh.bind_apply]
  obtain ⟨o, k⟩ := x.run n
  constructor
  · intro h
    cases o with
    | error e => cases h
    | ok a => exact ⟨a, k, rfl, h⟩
  · rintro ⟨a, k, ha, h⟩
    cases ha
    exact h

theorem run_bind_ok {x : ExceptT ε Fresh α} {f : α → ExceptT ε Fresh β} {a : α} {b : β} {k : Int}
    (hx : x.run n = (.ok a, k)) (hf : (f a).run k = (.ok b, m)) : (x >>= f).run n = (.ok b, m) :=
  run_bind_eq_ok.mpr ⟨a, k, hx, hf⟩

theorem run_bind_of_ok {x : ExceptT ε Fresh α} {f : α → ExceptT ε Fresh β} {a : α} {k : Int}
    (h : x.run n = (.ok a, k)) : (x >>= f).run n = (f a).run k := by
  rw [ExceptT.run_bind, Fresh.bind_apply, h]

theorem run_bind_of_error {x : ExceptT ε Fresh α} {f : α → ExceptT ε Fresh β} {e : ε} {k : Int}
    (h : x.run n = (.error e, k)) : (x >>= f).run n = (.error e, k) := by
  rw [ExceptT.run_bind, Fresh.bind_apply, h]
  rfl

theorem run_lift_eq_ok {x : Fresh α} {b : α} :
    (liftM x : ExceptT ε Fresh α).run n = (.ok b, m) ↔ x n = (b, m) := by
  change (Except.ok (x n).1, (x n).2) = (.ok b, m) ↔ _
  constructor
  · intro h
    cases h
    rfl
  · intro h
    rw [h]

end Fresh

end FomegaLab
