-- Naming is faithful: whatever uniques and texts two runs draw, the results are equal up
-- to bound names exactly if the values were equal. The names do not say the kind of an
-- argument, the type of an argument or the type of the body of an instance, but these
-- can be read off the kinds and the types of what is there.
import FomegaLab.Proofs.Conversion.Terms

namespace FomegaLab

open NamelessTy (NormalForm)

/-- Two namings of types stand for the same type exactly if the types are the same. -/
theorem PosTy.naming_faithful {k : Kind} {s t : PosTy} (hs : s.hasKind [] k = true)
    (ht : t.hasKind [] k = true) (texts texts' : NameStream) (n p : Int) :
    ∃ S m T q, (s.toNamedClosed texts k).run n = (.ok S, m) ∧
      (t.toNamedClosed texts' k).run p = (.ok T, q) ∧ (S.alphaEq T = true ↔ s = t) := by
  obtain ⟨u, hu⟩ := Denotes.exists_of_hasKind hs
  obtain ⟨v, hv⟩ := Denotes.exists_of_hasKind ht
  obtain ⟨S, m, hrunS, hS⟩ := hu.toNamedClosed texts n
  obtain ⟨T, q, hrunT, hT⟩ := hv.toNamedClosed texts' p
  refine ⟨S, m, T, q, hrunS, hrunT, ?_⟩
  rw [Ty.alphaEq_iff, hS.nameless_eq, hT.nameless_eq, Ref.openWith_nil, NamelessTy.rename_id,
    NamelessTy.rename_id]
  constructor
  · rintro rfl
    exact hu.injective hv
  · rintro rfl
    exact hu.unique hv

/-- A closed term is named as what it means. -/
theorem PosTerm.exists_toNamedClosed {fuel : Nat} {τ : PosTy} {t : PosTerm} {u U : NamelessTy}
    (ht : t.hasType fuel [] [] τ = true) (hu : Denotes [] .star τ u) (hU : NormalForm u U)
    (tyTexts texts : NameStream) (n : Int) :
    ∃ t' m, (∀ fuel' ≥ fuel, (t.toNamedClosed fuel' tyTexts texts τ).run n = (.ok t', m)) ∧
      DenotesTerm [] [] U t t'.nameless := by
  obtain ⟨M, hM⟩ := DenotesTerm.exists_of_hasType ht hu hU .nil
  obtain ⟨t', m, hrun, _, hmeaning⟩ := PosTerm.toNamed_spec ht hu hU (.empty tyTexts texts n)
  have hnameless := hmeaning [] M rfl hM
  simp only [NameScope.empty, Ref.openWith_nil, NamelessTerm.rename_id] at hnameless
  exact ⟨t', m, hrun, hnameless ▸ hM⟩

/-- Two namings of terms that carry normal types stand for the same term exactly if the
terms are the same. -/
theorem PosTerm.naming_faithful {fuel : Nat} {τ : PosTy} {t w : PosTerm}
    (hτ : τ.hasKind [] .star = true) (ht : t.hasType fuel [] [] τ = true)
    (hw : w.hasType fuel [] [] τ = true) (hnt : ∀ s ∈ t.types, s.step = none)
    (hnw : ∀ s ∈ w.types, s.step = none) (tyTexts texts tyTexts' texts' : NameStream) (n p : Int) :
    ∃ t' m w' q, (∀ fuel' ≥ fuel, (t.toNamedClosed fuel' tyTexts texts τ).run n = (.ok t', m)) ∧
      (∀ fuel' ≥ fuel, (w.toNamedClosed fuel' tyTexts' texts' τ).run p = (.ok w', q)) ∧
      (t'.alphaEq w' = true ↔ t = w) := by
  obtain ⟨u, hu⟩ := Denotes.exists_of_hasKind hτ
  obtain ⟨U, hU⟩ := NamelessTy.exists_normalForm hu.kind?_eq
  obtain ⟨t', m, hrunT, hT⟩ := exists_toNamedClosed ht hu hU tyTexts texts n
  obtain ⟨w', q, hrunW, hW⟩ := exists_toNamedClosed hw hu hU tyTexts' texts' p
  refine ⟨t', m, w', q, hrunT, hrunW, ?_⟩
  rw [Term.alphaEq_iff]
  constructor
  · intro h
    rw [← h] at hW
    exact (hT.injective hW hnt hnw).2
  · rintro rfl
    exact hT.unique hW

/-- Naming preserves and reflects equality, whatever uniques and texts it draws: of types
at their kind, and at their type of terms that carry normal types. -/
theorem naming_preserves_and_reflects_equality :
    (∀ (k : Kind) (s t : PosTy), s.hasKind [] k = true → t.hasKind [] k = true →
      ∀ (texts texts' : NameStream) (n p : Int), ∃ S m T q,
        (s.toNamedClosed texts k).run n = (.ok S, m) ∧
        (t.toNamedClosed texts' k).run p = (.ok T, q) ∧ (S.alphaEq T = true ↔ s = t)) ∧
    (∀ (fuel : Nat) (τ : PosTy) (u w : PosTerm), τ.hasKind [] .star = true →
      u.hasType fuel [] [] τ = true → w.hasType fuel [] [] τ = true →
      (∀ s ∈ u.types, s.step = none) → (∀ s ∈ w.types, s.step = none) →
      ∀ (tyTexts texts tyTexts' texts' : NameStream) (n p : Int), ∃ U m W q,
        (∀ fuel' ≥ fuel, (u.toNamedClosed fuel' tyTexts texts τ).run n = (.ok U, m)) ∧
        (∀ fuel' ≥ fuel, (w.toNamedClosed fuel' tyTexts' texts' τ).run p = (.ok W, q)) ∧
        (U.alphaEq W = true ↔ u = w)) :=
  ⟨fun _ _ _ hs ht => PosTy.naming_faithful hs ht,
    fun _ _ _ _ hτ hu hw hnu hnw => PosTerm.naming_faithful hτ hu hw hnu hnw⟩

/-- A type and its expansion, and two calls that differ only in the type of the argument,
which the names do not keep. -/
theorem naming_tells_two_calls_apart :
    let k : Kind := .arrow .star .star
    let s : PosTy := .lam (.var 0)
    let t : PosTy := .lam (.app (.lam (.var 0)) (.var 0) .star)
    let unit : PosTy := .builtin .unit
    let call (type : PosTy) : PosTerm := .app (.lam (.const ⟨.unit, none⟩)) .error type
    let u := call unit
    let w := call (.builtin .bool)
    (s.hasKind [] k = true ∧ t.hasKind [] k = true ∧ ∃ S m T q,
      (s.toNamedClosed (.ofStart "t") k).run 0 = (.ok S, m) ∧
      (t.toNamedClosed (.ofStart "t") k).run 7 = (.ok T, q) ∧ (S.alphaEq T = true ↔ s = t)) ∧
    (unit.hasKind [] .star = true ∧ u.hasType 0 [] [] unit = true ∧
      w.hasType 0 [] [] unit = true ∧ (∀ s ∈ u.types, s.step = none) ∧
      (∀ s ∈ w.types, s.step = none) ∧ ∃ U m W q,
        (∀ fuel ≥ 0, (u.toNamedClosed fuel (.ofStart "t") (.ofStart "x") unit).run 0 = (.ok U, m)) ∧
        (∀ fuel ≥ 0, (w.toNamedClosed fuel (.ofStart "t") (.ofStart "x") unit).run 7 = (.ok W, q)) ∧
        (U.alphaEq W = true ↔ u = w)) := by
  intro k s t unit call u w
  have hs : s.hasKind [] k = true := by decide
  have ht : t.hasKind [] k = true := by decide
  have hunit : unit.hasKind [] .star = true := by decide
  have hu : u.hasType 0 [] [] unit = true := by decide
  have hw : w.hasType 0 [] [] unit = true := by decide
  have hnu : ∀ s ∈ u.types, s.step = none := by decide
  have hnw : ∀ s ∈ w.types, s.step = none := by decide
  obtain ⟨htypes, hterms⟩ := naming_preserves_and_reflects_equality
  exact ⟨⟨hs, ht, htypes k s t hs ht _ _ 0 7⟩, hunit, hu, hw, hnu, hnw,
    hterms 0 unit u w hunit hu hw hnu hnw _ _ _ _ 0 7⟩

end FomegaLab
