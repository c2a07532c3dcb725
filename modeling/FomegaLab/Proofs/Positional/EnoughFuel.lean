-- How much fuel the enumeration of terms needs. The types that it normalizes have kinds,
-- and for one size there are finitely many of them, so from some fuel on the list is the
-- same at any fuel. Then no term is missing that has the type.
import FomegaLab.Proofs.Positional.TermListing

namespace FomegaLab

/-- From some fuel on, the value is the same at any fuel. -/
def Settles {α : Type} (f : Nat → α) : Prop := ∃ d, ∀ fuel ≥ d, f fuel = f d

namespace Settles

variable {α β γ : Type}

theorem const (a : α) : Settles fun _ => a := ⟨0, fun _ _ => rfl⟩

theorem map (op : α → β) {f : Nat → α} (hf : Settles f) : Settles fun fuel => op (f fuel) := by
  obtain ⟨d, hd⟩ := hf
  exact ⟨d, fun fuel hfuel => congrArg op (hd fuel hfuel)⟩

theorem map₂ (op : α → β → γ) {f : Nat → α} {g : Nat → β} (hf : Settles f) (hg : Settles g) :
    Settles fun fuel => op (f fuel) (g fuel) := by
  obtain ⟨d, hd⟩ := hf
  obtain ⟨e, he⟩ := hg
  refine ⟨max d e, ?_⟩
  intro fuel hfuel
  have hf : f fuel = f (max d e) := (hd fuel (by omega)).trans (hd (max d e) (by omega)).symm
  have hg : g fuel = g (max d e) := (he fuel (by omega)).trans (he (max d e) (by omega)).symm
  simp only [hf, hg]

theorem flatMap {l : List α} {f : Nat → α → List β} (h : ∀ a ∈ l, Settles fun fuel => f fuel a) :
    Settles fun fuel => l.flatMap (f fuel) := by
  induction l with
  | nil => exact const []
  | cons a l ih =>
    have ha := h a List.mem_cons_self
    have hl := ih fun b hb => h b (List.mem_cons_of_mem a hb)
    exact map₂ (· ++ ·) ha hl

end Settles

namespace TermEnumeration

variable {e : Nat → TermEnumeration}

theorem instances_settles (he : ∀ D G τ n, Settles fun fuel => e fuel D G τ n) {D : List Kind}
    (G : List PosTy) (τ : PosTy) {k : Kind} {b s : PosTy} (hb : b.hasKind (k :: D) .star = true)
    (hs : s.hasKind D k = true) (m : Nat) :
    Settles fun fuel => instances fuel (e fuel) D G τ k b s m := by
  obtain ⟨u, hu⟩ := Denotes.exists_of_hasKind hb
  obtain ⟨v, hv⟩ := Denotes.exists_of_hasKind hs
  -- the body at the argument has a kind too, so it has a normal form from some fuel on
  obtain ⟨d, t, _, hd, _⟩ := (hu.instantiate hv).exists_normalize
  have hnormalize : Settles fun fuel => (b.instantiate s).normalize fuel :=
    ⟨d, fun fuel hfuel => (hd fuel hfuel).trans (hd d (Nat.le_refl d)).symm⟩
  exact .map₂ (fun o l => if o = some τ then l.map fun t => PosTerm.inst t b s k else []) hnormalize
    (he D G (.all k b) m)

theorem instantiations_settles (he : ∀ D G τ n, Settles fun fuel => e fuel D G τ n)
    (D : List Kind) (G : List PosTy) (τ : PosTy) (n : Nat) :
    Settles fun fuel => instantiations fuel (e fuel) D G τ (n + 1) := by
  simp only [instantiations_eq]
  refine .flatMap fun p _ => .flatMap fun k _ => .flatMap fun q _ => .flatMap fun b hb =>
    .flatMap fun r _ => .flatMap fun s hs => ?_
  have hb' := ((PosTy.normalOfSize_lists (k :: D) .star q.1).mem_iff b).mp hb
  have hs' := ((PosTy.normalOfSize_lists D k r.1).mem_iff s).mp hs
  exact instances_settles he G τ hb'.1.1 hs'.1.1 r.2

theorem constructors_settle (he : ∀ D G τ n, Settles fun fuel => e fuel D G τ n)
    (D : List Kind) (G : List PosTy) (τ : PosTy) (n : Nat) :
    Settles fun fuel => (constructors fuel (e fuel)).flatMap fun c => c D G τ (n + 1) := by
  have hlambdas : Settles fun fuel => lambdas (e fuel) D G τ (n + 1) := by
    cases τ with
    | arrow s r => exact .map (List.map PosTerm.lam) (he D (s :: G) r n)
    | _ => exact .const []
  have htyLambdas : Settles fun fuel => tyLambdas (e fuel) D G τ (n + 1) := by
    cases τ with
    | all k b => exact .map (List.map PosTerm.tyLam) (he (k :: D) _ b n)
    | _ => exact .const []
  have happlications : Settles fun fuel => applications (e fuel) D G τ (n + 1) :=
    .flatMap fun p _ => .flatMap fun s _ => .flatMap fun q _ =>
      .map₂ (fun fs as => cross _ fs fun _ => as) (he D G _ q.1) (he D G s q.2)
  have hinstantiations := instantiations_settles he D G τ n
  simp only [constructors, List.flatMap_cons, List.flatMap_nil]
  refine .map₂ (· ++ ·) (.const _) <| .map₂ (· ++ ·) (.const _) <| .map₂ (· ++ ·) (.const _) <|
    .map₂ (· ++ ·) hlambdas <| .map₂ (· ++ ·) htyLambdas <| .map₂ (· ++ ·) happlications <|
    .map₂ (· ++ ·) hinstantiations (.const [])

end TermEnumeration

namespace PosTerm

open TermEnumeration

theorem ofSizeWithin_settles (bound : Nat) (D : List Kind) (G : List PosTy) (τ : PosTy) (n : Nat) :
    Settles fun fuel => ofSizeWithin fuel bound D G τ n := by
  induction bound generalizing D G τ n with
  | zero => exact .const []
  | succ bound ih =>
    cases n with
    | zero => exact .const []
    | succ n => exact constructors_settle ih D G τ n

/-- One amount of fuel is enough to find out which terms of a size have a type. -/
theorem exists_enough_fuel {D : List Kind} {G : List PosTy} {τ : PosTy}
    (hG : ∀ s ∈ G, s.step = none) (hτ : τ.step = none) (n : Nat) :
    ∃ d, ∀ fuel ≥ d, ∀ t : PosTerm, t.IsCanonical → t.size = n → t.Typed D G τ →
      t.hasType fuel D G τ = true := by
  obtain ⟨d, hd⟩ := ofSizeWithin_settles n D G τ n
  refine ⟨d, ?_⟩
  rintro fuel hfuel t hc hn ⟨fuel', ht⟩
  have hlists := fun fuel => ofSize_lists (D := D) hG hτ fuel n
  -- the term is listed at more fuel than both, so it is listed at the fuel
  have hmax := hasType_mono (Nat.le_max_right fuel fuel') ht
  have hlisted := ((hlists (max fuel fuel')).mem_iff t).mpr ⟨⟨hmax, hc⟩, hn⟩
  have heq : ofSize (max fuel fuel') D G τ n = ofSize fuel D G τ n :=
    (hd _ (by omega)).trans (hd fuel hfuel).symm
  rw [heq] at hlisted
  exact (((hlists fuel).mem_iff t).mp hlisted).1.1

/-- The same for all terms up to a size. -/
theorem exists_enough_fuel_upTo {D : List Kind} {G : List PosTy} {τ : PosTy}
    (hG : ∀ s ∈ G, s.step = none) (hτ : τ.step = none) (n : Nat) :
    ∃ d, ∀ fuel ≥ d, ∀ t : PosTerm, t.IsCanonical → t.size ≤ n → t.Typed D G τ →
      t.hasType fuel D G τ = true := by
  induction n with
  | zero =>
    refine ⟨0, ?_⟩
    rintro fuel _ t _ hn ⟨fuel', ht⟩
    have := size_pos_of_hasType ht
    omega
  | succ n ih =>
    obtain ⟨d, hd⟩ := ih
    obtain ⟨e, he⟩ := exists_enough_fuel hG hτ (n + 1)
    refine ⟨max d e, ?_⟩
    intro fuel hfuel t hc hn ht
    by_cases hlast : t.size = (n + 1 : Nat)
    · exact he fuel (by omega) t hc hlast ht
    · exact hd fuel (by omega) t hc (by omega) ht

theorem isCanonical_iff {t : PosTerm} : t.IsCanonical ↔
    (∀ s ∈ t.types, s.step = none) ∧ ∀ l ∈ t.literals, l ∈ l.builtin.literals := by
  simp only [← Literal.isCanonical_iff]
  exact ⟨fun h => ⟨h.types, h.literals⟩, fun h => ⟨h.1, h.2⟩⟩

/-- The terms that are listed for a normal type and a size are the canonical terms of this
type and size, each of them once. List and check agree at every fuel, and from some fuel on
nothing is missing that the check accepts at any fuel. -/
theorem every_canonical_term_is_listed_once {D : List Kind} {G : List PosTy} {τ : PosTy}
    (hG : ∀ s ∈ G, s.step = none) (hτ : τ.step = none) (n : Int) :
    (∀ fuel, (ofSize fuel D G τ n.toNat).Nodup ∧ ∀ t, t ∈ ofSize fuel D G τ n.toNat ↔
      t.hasType fuel D G τ = true ∧ t.size = n ∧ (∀ s ∈ t.types, s.step = none) ∧
        ∀ l ∈ t.literals, l ∈ l.builtin.literals) ∧
    ∃ d, ∀ fuel ≥ d, ∀ t, t ∈ ofSize fuel D G τ n.toNat ↔
      t.Typed D G τ ∧ t.size = n ∧ (∀ s ∈ t.types, s.step = none) ∧
        ∀ l ∈ t.literals, l ∈ l.builtin.literals := by
  have hmem : ∀ fuel t, t ∈ ofSize fuel D G τ n.toNat ↔
      t.hasType fuel D G τ = true ∧ t.size = n ∧ t.IsCanonical := by
    intro fuel t
    rw [(ofSize_lists hG hτ fuel n.toNat).mem_iff]
    constructor
    · rintro ⟨⟨ht, hc⟩, hn⟩
      have := size_pos_of_hasType ht
      exact ⟨ht, by omega, hc⟩
    · rintro ⟨ht, hn, hc⟩
      have := size_pos_of_hasType ht
      exact ⟨⟨ht, hc⟩, by omega⟩
  simp only [← isCanonical_iff]
  constructor
  · intro fuel
    exact ⟨(ofSize_lists hG hτ fuel n.toNat).nodup, hmem fuel⟩
  · obtain ⟨d, hd⟩ := exists_enough_fuel hG hτ n.toNat
    refine ⟨d, ?_⟩
    intro fuel hfuel t
    rw [hmem fuel t]
    constructor
    · rintro ⟨ht, hn, hc⟩
      exact ⟨⟨fuel, ht⟩, hn, hc⟩
    · rintro ⟨⟨fuel', ht⟩, hn, hc⟩
      have := size_pos_of_hasType ht
      exact ⟨hd fuel hfuel t hc (by omega) ⟨fuel', ht⟩, hn, hc⟩

/-- A polymorphic function in scope that is used at the unit type. -/
theorem every_canonical_term_is_listed_once_under_a_binder :
    let unit : PosTy := .builtin .unit
    let body : PosTy := .arrow (.var 0) (.var 1)
    let D : List Kind := [.star]
    let G : List PosTy := [.all .star body]
    let τ : PosTy := .var 0
    let call : PosTerm := .app (.inst (.var 0) body unit .star) (.const ⟨.unit, none⟩) unit
    ((∀ s ∈ G, s.step = none) ∧ τ.step = none) ∧
      (∀ fuel, (ofSize fuel D G τ 11).Nodup ∧ ∀ t, t ∈ ofSize fuel D G τ 11 ↔
        t.hasType fuel D G τ = true ∧ t.size = 11 ∧ (∀ s ∈ t.types, s.step = none) ∧
          ∀ l ∈ t.literals, l ∈ l.builtin.literals) ∧
      ∃ d, ∀ fuel ≥ d, call ∈ ofSize fuel D G τ 11 ∧ ∀ t, t ∈ ofSize fuel D G τ 11 ↔
        t.Typed D G τ ∧ t.size = 11 ∧ (∀ s ∈ t.types, s.step = none) ∧
          ∀ l ∈ t.literals, l ∈ l.builtin.literals := by
  intro unit body D G τ call
  have hG : ∀ s ∈ G, s.step = none := by decide
  have hτ : τ.step = none := by decide
  have hcall : call.hasType 3 D G τ = true := by decide
  have hsize : call.size = 11 := by decide
  have htypes : ∀ s ∈ call.types, s.step = none := by decide
  have hliterals : ∀ l ∈ call.literals, l ∈ l.builtin.literals := by decide
  obtain ⟨hlist, d, hd⟩ := every_canonical_term_is_listed_once (D := D) hG hτ 11
  refine ⟨⟨hG, hτ⟩, hlist, d, ?_⟩
  intro fuel hfuel
  exact ⟨(hd fuel hfuel call).mpr ⟨⟨3, hcall⟩, hsize, htypes, hliterals⟩, hd fuel hfuel⟩

end PosTerm

end FomegaLab
