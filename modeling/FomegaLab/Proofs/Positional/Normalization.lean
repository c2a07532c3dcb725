-- Normalizing early or late. A shift passes through normalization at every fuel, whatever
-- the kind, because it passes through instantiation. Normalizing the parts of an instance
-- first makes no difference to its normal form, because the meaning of the instance reduces
-- to what the normalized parts mean together.
import FomegaLab.Proofs.Positional.Steps
import FomegaLab.Proofs.Positional.Substitution

namespace FomegaLab

namespace PosTy

/-! ## Shifts pass through normalization -/

theorem normalizeWith_shift {contracted : PosTy → Option PosTy} {a : Int} (ha : 0 ≤ a)
    (hcontracted : ∀ t c, 0 ≤ c → contracted (t.shift a c) = (contracted t).map (·.shift a c))
    (t : PosTy) {c : Int} (hc : 0 ≤ c) :
    (t.shift a c).normalizeWith contracted = (t.normalizeWith contracted).map (·.shift a c) := by
  induction t generalizing c with
  | var | builtin => rfl
  | arrow s t ihs iht =>
    simp only [shift, normalizeWith, ihs hc, iht hc]
    cases s.normalizeWith contracted <;> cases t.normalizeWith contracted <;> rfl
  | all k t ih | lam t ih =>
    simp only [shift, normalizeWith, ih (show 0 ≤ c + 1 by omega)]
    cases t.normalizeWith contracted <;> rfl
  | app f t k ihf iht =>
    simp only [shift, normalizeWith, ihf hc, iht hc]
    rcases f.normalizeWith contracted with _ | f'
    · rfl
    rcases t.normalizeWith contracted with _ | t'
    · rfl
    cases f' with
    | lam body =>
      have hcontract := hcontracted (body.instantiate t') c hc
      rw [shift_instantiate ha hc] at hcontract
      exact hcontract
    | _ => rfl

/-- A shifted type normalizes, at the same fuel, to the shifted normal form. Neither needs a
kind for that. -/
theorem normalize_shift {a : Int} (ha : 0 ≤ a) (fuel : Nat) (t : PosTy) {c : Int} (hc : 0 ≤ c) :
    (t.shift a c).normalize fuel = (t.normalize fuel).map (·.shift a c) := by
  induction fuel generalizing t c with
  | zero => exact normalizeWith_shift ha (fun _ _ _ => rfl) t hc
  | succ fuel ih => exact normalizeWith_shift ha (fun t c hc => ih t hc) t hc

end PosTy

/-! ## Normalizing before and after -/

/-- An instance has the normal form that the instance of the normalized parts has. -/
theorem Denotes.normalize_instantiate {D : List Kind} {k k' : Kind} {b a : PosTy}
    {u v : NamelessTy} (hb : Denotes (k :: D) k' b u) (ha : Denotes D k a v) :
    ∃ b' a' n d, ∀ fuel ≥ d, b.normalize fuel = some b' ∧ a.normalize fuel = some a' ∧
      (b.instantiate a).normalize fuel = some n ∧
      (b'.instantiate a').normalize fuel = some n := by
  obtain ⟨d₁, b', u', hd₁, hb', hu⟩ := hb.exists_normalize
  obtain ⟨d₂, a', v', hd₂, ha', hv⟩ := ha.exists_normalize
  obtain ⟨d₃, n, w, hd₃, hn, hw⟩ := (hb.instantiate ha).exists_normalize
  obtain ⟨d₄, n', w', hd₄, hn', hw'⟩ := (hb'.instantiate ha').exists_normalize
  -- the late instance reduces to the early one, so both have one normal form
  have hsteps : NamelessTy.Steps (u.inst v) (u'.inst v') := .inst hu.steps hv.steps
  cases (hw.after_steps hsteps).unique hw'
  cases hn.injective hn'
  refine ⟨b', a', n, max (max d₁ d₂) (max d₃ d₄), ?_⟩
  intro fuel hfuel
  exact ⟨hd₁ fuel (by omega), hd₂ fuel (by omega), hd₃ fuel (by omega), hd₄ fuel (by omega)⟩

/-- It makes no difference whether types are normalized before or after they are put together:
an instance has the normal form of the instance of normal parts, and a shifted type has the
shifted normal form. A shift adds to references and never takes away, since a smaller
reference could be caught by a binder. -/
theorem normalizing_early_or_late_makes_no_difference :
    (∀ (D : List Kind) (k k' : Kind) (b a : PosTy),
      b.hasKind (k :: D) k' = true → a.hasKind D k = true →
      ∃ b' a' n d, ∀ fuel ≥ d, b.normalize fuel = some b' ∧ a.normalize fuel = some a' ∧
        (b.instantiate a).normalize fuel = some n ∧
        (b'.instantiate a').normalize fuel = some n) ∧
    ∀ (D : List Kind) (k : Kind) (t : PosTy), t.hasKind D k = true →
      ∀ amount cutoff : Int, 0 ≤ amount → 0 ≤ cutoff →
      ∃ n d, ∀ fuel ≥ d, t.normalize fuel = some n ∧
        (t.shift amount cutoff).normalize fuel = some (n.shift amount cutoff) := by
  constructor
  · intro D k k' b a hb ha
    obtain ⟨u, hu⟩ := Denotes.exists_of_hasKind hb
    obtain ⟨v, hv⟩ := Denotes.exists_of_hasKind ha
    exact hu.normalize_instantiate hv
  · intro D k t hk amount cutoff ha hc
    obtain ⟨u, hu⟩ := Denotes.exists_of_hasKind hk
    obtain ⟨d, n, _, hd, _⟩ := hu.exists_normalize
    refine ⟨n, d, ?_⟩
    intro fuel hfuel
    rw [PosTy.normalize_shift ha fuel t hc, hd fuel hfuel]
    exact ⟨rfl, rfl⟩

/-- A lambda that is put for a variable in front of an argument, so that normal parts make a
redex, and a redex under a binder that is shifted between its two references. -/
theorem normalizing_early_or_late_makes_no_difference_to_a_new_redex :
    let k : Kind := .arrow .star .star
    let b : PosTy := .all .star (.app (.var 1) (.arrow (.var 0) (.var 2)) .star)
    let a : PosTy := .lam (.app (.lam (.arrow (.var 0) (.var 2))) (.var 0) .star)
    let t : PosTy := .all .star (.app (.lam (.arrow (.var 2) (.var 3))) (.var 0) .star)
    b.hasKind [k, .star] .star = true ∧ a.hasKind [.star] k = true ∧
      (∃ b' a' n d, ∀ fuel ≥ d, b.normalize fuel = some b' ∧ a.normalize fuel = some a' ∧
        (b.instantiate a).normalize fuel = some n ∧
        (b'.instantiate a').normalize fuel = some n) ∧
      t.hasKind [.star, .star] .star = true ∧
      ∃ n d, ∀ fuel ≥ d, t.normalize fuel = some n ∧
        (t.shift 3 1).normalize fuel = some (n.shift 3 1) := by
  intro k b a t
  have hb : b.hasKind [k, .star] .star = true := by decide
  have ha : a.hasKind [.star] k = true := by decide
  have ht : t.hasKind [.star, .star] .star = true := by decide
  obtain ⟨hinstances, hshifts⟩ := normalizing_early_or_late_makes_no_difference
  exact ⟨hb, ha, hinstances [.star] k .star b a hb ha, ht,
    hshifts [.star, .star] .star t ht 3 1 (by decide) (by decide)⟩

end FomegaLab
