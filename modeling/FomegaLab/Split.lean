-- Dividing a size between the parts of a syntax tree, and pairing the parts.
-- `mem_splits` says which divisions are listed, `cross_eq` which pairs, and `filter_cross`
-- which pairs a test leaves.

namespace FomegaLab

/-- The ways to divide `n` into a first part of at least one and a rest of at
least `least`, smaller first parts first. -/
def splits (least n : Nat) : List (Nat × Nat) :=
  (List.range' 1 (n - least)).map fun i => (i, n - i)

theorem mem_splits {least n i j : Nat} (h : 0 < least) :
    (i, j) ∈ splits least n ↔ 1 ≤ i ∧ least ≤ j ∧ i + j = n := by
  simp only [splits, List.mem_map, List.mem_range'_1, Prod.mk.injEq]
  constructor
  · rintro ⟨k, hk, rfl, rfl⟩
    omega
  · rintro ⟨hi, hj, hn⟩
    exact ⟨i, by omega, rfl, by omega⟩

/-- Every `f a b`, with the `a` changing slowest. The second list is left alone
when the first one is empty. -/
def cross {α β γ : Type} (f : α → β → γ) (as : List α) (bs : Unit → List β) : List γ :=
  match as with
  | [] => []
  | a :: as =>
    let bs := bs ()
    (a :: as).flatMap fun a => bs.map (f a)

theorem cross_eq {α β γ : Type} (f : α → β → γ) (as : List α) (bs : Unit → List β) :
    cross f as bs = as.flatMap fun a => (bs ()).map (f a) := by
  cases as <;> rfl

/-- Pairs that pass a test are pairs of parts that pass tests of their own. -/
theorem filter_cross {α β γ : Type} {f : α → β → γ} {p : α → Bool} {q : β → Bool} {r : γ → Bool}
    (h : ∀ a b, r (f a b) = (p a && q b)) (as : List α) (bs : Unit → List β) :
    (cross f as bs).filter r = cross f (as.filter p) fun _ => (bs ()).filter q := by
  simp only [cross_eq]
  induction as with
  | nil => rfl
  | cons a as ih =>
    have hmap : ((bs ()).map (f a)).filter r =
        if p a then ((bs ()).filter q).map (f a) else [] := by
      rw [List.filter_map]
      cases hp : p a <;> simp [Function.comp_def, h, hp]
    rw [List.flatMap_cons, List.filter_append, ih, hmap, List.filter_cons]
    cases p a <;> rfl

end FomegaLab
