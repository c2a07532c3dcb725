-- The laws of shifts and substitutions for positional types. A substitution passes through a
-- shift on either side of the reference that it replaces, and takes back one place of a shift
-- that made room for this reference. So two substitutions may change places. None of this needs
-- a scope or a kind, and references may be negative: no shift and no substitution reaches them.
import FomegaLab.Positional.Subst
import Mathlib.Logic.Basic
import Mathlib.Tactic.SplitIfs

namespace FomegaLab.PosTy

attribute [local simp] shift substAt

/-! ## Shifts -/

theorem shift_zero (c : Int) (t : PosTy) : t.shift 0 c = t := by
  induction t generalizing c with
  | var | builtin => simp
  | arrow s t ihs iht => simp [ihs, iht]
  | app f t k ihf iht => simp [ihf, iht]
  | all k t ih | lam t ih => simp [ih]

/-- Of two shifts the outer one is moved up by the inner one. -/
theorem shift_shift {a b c d : Int} (ha : 0 ≤ a) (hb : 0 ≤ b) (h : d + b ≤ c) (t : PosTy) :
    (t.shift b d).shift a c = (t.shift a (c - b)).shift b d := by
  induction t generalizing c d with
  | var i =>
    simp only [shift, var.injEq]
    split_ifs <;> omega
  | builtin => rfl
  | arrow s t ihs iht => simp [ihs h, iht h]
  | app f t k ihf iht => simp [ihf h, iht h]
  | all k t ih | lam t ih =>
    have hbody := ih (c := c + 1) (d := d + 1) (by omega)
    rw [show c + 1 - b = c - b + 1 by omega] at hbody
    simp [hbody]

/-- A shift from within the room that another one made makes it larger. -/
theorem shift_shift_add {a b c d : Int} (hdc : d ≤ c) (hcd : c ≤ d + b) (t : PosTy) :
    (t.shift b d).shift a c = t.shift (a + b) d := by
  induction t generalizing c d with
  | var i =>
    simp only [shift, var.injEq]
    split_ifs <;> omega
  | builtin => rfl
  | arrow s t ihs iht => simp [ihs hdc hcd, iht hdc hcd]
  | app f t k ihf iht => simp [ihf hdc hcd, iht hdc hcd]
  | all k t ih | lam t ih =>
    have hbody := ih (c := c + 1) (d := d + 1) (by omega) (by omega)
    simp [hbody]

/-! ## Shifts and substitutions -/

/-- A reference within the room that a shift made is used nowhere. Replacing it closes one
place of the room. -/
theorem substAt_shift {a c d : Int} (hcd : c ≤ d) (hdc : d ≤ c + a) (t s : PosTy) :
    (t.shift (a + 1) c).substAt d s = t.shift a c := by
  induction t generalizing c d with
  | var i =>
    rcases Int.lt_or_le i c with hi | hi
    · rw [shift_var_of_lt hi, shift_var_of_lt hi, substAt_var_of_lt (by omega)]
    · rw [shift_var_of_le hi, shift_var_of_le hi, substAt_var_of_gt (by omega), ← Int.add_assoc,
        Int.add_sub_cancel]
  | builtin => rfl
  | arrow s t ihs iht => simp [ihs hcd hdc, iht hcd hdc]
  | app f t k ihf iht => simp [ihf hcd hdc, iht hcd hdc]
  | all k t ih | lam t ih =>
    have hbody := ih (c := c + 1) (d := d + 1) (by omega) (by omega)
    simp [hbody]

/-- A new innermost binder that is instantiated at once leaves nothing behind. -/
theorem instantiate_shift (t s : PosTy) : (t.shift 1 0).instantiate s = t := by
  have h := substAt_shift (a := 0) (Int.le_refl 0) (Int.le_refl 0) t s
  rw [shift_zero] at h
  exact h

/-- A shift below the reference that is replaced moves this reference along. -/
theorem substAt_shift_of_le {a c d : Int} (ha : 0 ≤ a) (hc : 0 ≤ c) (hcd : c ≤ d) (t s : PosTy) :
    (t.shift a c).substAt (d + a) s = (t.substAt d s).shift a c := by
  induction t generalizing c d with
  | var i =>
    rcases eq_or_ne i d with rfl | hi
    · -- the replacement lands here, shifted over all binders at once or in two parts
      have hparts := shift_shift_add (a := a) hc (by omega : c ≤ 0 + i) s
      simp [hcd, hparts, Int.add_comm]
    · simp only [shift, substAt, hi, if_false]
      split_ifs <;> simp <;> omega
  | builtin => rfl
  | arrow s t ihs iht => simp [ihs hc hcd, iht hc hcd]
  | app f t k ihf iht => simp [ihf hc hcd, iht hc hcd]
  | all k t ih | lam t ih =>
    have hbody := ih (c := c + 1) (d := d + 1) (by omega) (by omega)
    rw [show d + 1 + a = d + a + 1 by omega] at hbody
    simp [hbody]

/-- A shift from above the reference that is replaced shifts the body, one further out, and
the replacement. -/
theorem shift_substAt {a c d : Int} (ha : 0 ≤ a) (hd : 0 ≤ d) (h : d ≤ c) (t s : PosTy) :
    (t.substAt d s).shift a c = (t.shift a (c + 1)).substAt d (s.shift a (c - d)) := by
  induction t generalizing c d with
  | var i =>
    rcases eq_or_ne i d with rfl | hi
    · -- the replacement lands here, shifted over the binders that it passed
      have hkept : ¬ c + 1 ≤ i := by omega
      have hmoved := shift_shift (d := 0) ha hd (by omega : 0 + i ≤ c) s
      simp [hkept, hmoved]
    · simp only [shift, substAt, hi, if_false]
      split_ifs <;> simp <;> omega
  | builtin => rfl
  | arrow s t ihs iht => simp [ihs hd h, iht hd h]
  | app f t k ihf iht => simp [ihf hd h, iht hd h]
  | all k t ih | lam t ih =>
    have hbody := ih (c := c + 1) (d := d + 1) (by omega) (by omega)
    rw [show c + 1 - (d + 1) = c - d by omega] at hbody
    simp [hbody]

theorem shift_instantiate {a c : Int} (ha : 0 ≤ a) (hc : 0 ≤ c) (t s : PosTy) :
    (t.instantiate s).shift a c = (t.shift a (c + 1)).instantiate (s.shift a c) := by
  have h := shift_substAt ha (Int.le_refl 0) hc t s
  rwa [Int.sub_zero] at h

/-! ## Two substitutions -/

/-- Of two substitutions the outer one may go first. It then counts the binder that the inner
one removes, and it has to go through the inner replacement as well. -/
theorem substAt_substAt {i j : Int} (hi : 0 ≤ i) (hij : i ≤ j) (t a b : PosTy) :
    (t.substAt i a).substAt j b = (t.substAt (j + 1) b).substAt i (a.substAt (j - i) b) := by
  induction t generalizing i j with
  | var k =>
    rcases Int.lt_trichotomy k i with hk | rfl | hk
    · rw [substAt_var_of_lt hk, substAt_var_of_lt (by omega), substAt_var_of_lt (by omega),
        substAt_var_of_lt hk]
    · -- the inner replacement lands here
      have hinner := substAt_shift_of_le hi (Int.le_refl 0) (by omega : 0 ≤ j - k) a b
      rw [Int.sub_add_cancel] at hinner
      rw [substAt_var_self, substAt_var_of_lt (by omega), substAt_var_self, hinner]
    · rw [substAt_var_of_gt hk]
      rcases Int.lt_trichotomy k (j + 1) with hk' | rfl | hk'
      · rw [substAt_var_of_lt (by omega), substAt_var_of_lt hk', substAt_var_of_gt hk]
      · -- the outer replacement lands here, in the room of the binder that is removed
        rw [Int.add_sub_cancel, substAt_var_self, substAt_var_self,
          substAt_shift hi (by omega : i ≤ 0 + j)]
      · rw [substAt_var_of_gt (by omega), substAt_var_of_gt hk', substAt_var_of_gt (by omega)]
  | builtin => rfl
  | arrow s t ihs iht => simp [ihs hi hij, iht hi hij]
  | app f t k ihf iht => simp [ihf hi hij, iht hi hij]
  | all k t ih | lam t ih =>
    have hbody := ih (i := i + 1) (j := j + 1) (by omega) (by omega)
    rw [show j + 1 - (i + 1) = j - i by omega] at hbody
    simp [hbody]

/-- Substitutions change places as the substitution lemma says, at all depths, and an
instantiation takes back the shift over the binder that it removes. -/
theorem substitution_obeys_its_laws_at_all_depths :
    (∀ (t a b : PosTy) (i j : Int), 0 ≤ i → i ≤ j →
      (t.substAt i a).substAt j b = (t.substAt (j + 1) b).substAt i (a.substAt (j - i) b)) ∧
    ∀ t a : PosTy, (t.shift 1 0).instantiate a = t :=
  ⟨fun t a b _ _ hi hij => substAt_substAt hi hij t a b, instantiate_shift⟩

/-- Under two binders, a reference for each substitution, one beyond both, and a replacement
that holds a reference for the other substitution. -/
theorem substitution_obeys_its_laws_at_all_depths_under_two_binders :
    let t : PosTy :=
      .all .star (.lam (.arrow (.var 3) (.app (.var 5) (.arrow (.var 0) (.var 6)) .star)))
    let a : PosTy := .all .star (.arrow (.var 1) (.var 2))
    let b : PosTy := .lam (.arrow (.var 0) (.var 1))
    let a' : PosTy := .all .star (.arrow (.var 4) (.lam (.arrow (.var 0) (.var 6))))
    let b' : PosTy := .lam (.arrow (.var 0) (.var 5))
    (0 : Int) ≤ 1 ∧ (1 : Int) ≤ 2 ∧
      (t.substAt 1 a).substAt 2 b =
        .all .star (.lam (.arrow a' (.app b' (.arrow (.var 0) (.var 4)) .star))) ∧
      (t.substAt 1 a).substAt 2 b = (t.substAt (2 + 1) b).substAt 1 (a.substAt (2 - 1) b) ∧
      (t.shift 1 0).instantiate a = t := by
  intro t a b a' b'
  obtain ⟨hswap, hroom⟩ := substitution_obeys_its_laws_at_all_depths
  exact ⟨by decide, by decide, by rfl, hswap t a b 1 2 (by decide) (by decide), hroom t a⟩

end FomegaLab.PosTy
