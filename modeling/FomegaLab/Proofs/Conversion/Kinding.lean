-- Which positional types can be named. Naming a type at a kind succeeds exactly if
-- the type has this kind, and then the kind that is inferred by name is the same: the
-- three kind checks agree, also on references that lead nowhere.
import FomegaLab.Proofs.Conversion.Types

namespace FomegaLab

/-! ## Checks that succeed -/

namespace Convert

variable {n m : Int}

theorem checkStar_eq_ok {t : PosTy} {k : Kind} {u : Unit} :
    (checkStar t k).run n = (.ok u, m) ↔ k = .star ∧ n = m := by
  unfold checkStar
  split_ifs with h
  · rw [Fresh.run_pure_eq_ok]
    exact ⟨fun hr => ⟨h, hr.2⟩, fun hr => ⟨rfl, hr.2⟩⟩
  · refine ⟨fun hr => absurd hr Fresh.run_throw_ne_ok, ?_⟩
    rintro ⟨hk, _⟩
    exact absurd hk h

theorem nameOf_eq_ok {ν : Type} {scope : NameScope ν} {i : Int} {x : ν} :
    (nameOf scope i).run n = (.ok x, m) ↔
      (0 ≤ i ∧ scope.names[i.toNat]? = some x) ∧ n = m := by
  rw [← NameScope.nameOf_eq_ok_iff]
  unfold nameOf
  cases scope.nameOf i with
  | ok y => exact Fresh.run_pure_eq_ok.trans (by rw [Except.ok.injEq])
  | error e =>
    refine ⟨fun h => absurd h Fresh.run_throw_ne_ok, ?_⟩
    rintro ⟨h, _⟩
    cases h

/-- The check of a reference that the scope has a name for. A negative reference may
pass the check, since it is looked up from the other end. -/
theorem getElem?_of_checkVariable {D : List Kind} {i : Int} {k : Kind} {u : Unit} (hi : 0 ≤ i)
    (hlt : i.toNat < D.length) (h : (checkVariable (some D) i k).run n = (.ok u, m)) :
    D[i.toNat]? = some k := by
  obtain ⟨j, hj⟩ : ∃ j, D[i.toNat]? = some j := ⟨_, List.getElem?_eq_getElem hlt⟩
  have hreferred : referredKind D i = .ok (some j) := by
    rw [referredKind, if_neg (by omega), if_neg (by omega), Scope.find?_eq_some_iff.mpr ⟨hi, hj⟩]
  simp only [checkVariable, hreferred] at h
  split_ifs at h with hjk
  · rw [hj, hjk]
  · exact absurd h Fresh.run_throw_ne_ok

end Convert

/-! ## Types that are named -/

namespace PosTy

/-- A type that is named at a kind has it, if the scope names as many binders as there
are kinds. -/
theorem hasKind_of_toNamed {t : PosTy} {scope : NameScope TyName} {D : List Kind} {k : Kind}
    (hlen : scope.names.length = D.length) {n m : Int} {T : Ty}
    (h : (t.toNamed scope (some D) k).run n = (.ok T, m)) : t.hasKind D k = true := by
  induction t generalizing scope D k n m T with
  | var i =>
    simp only [toNamed, Fresh.run_bind_eq_ok, Convert.nameOf_eq_ok] at h
    obtain ⟨_, _, hcheck, a, _, ⟨⟨hi, ha⟩, _⟩, _⟩ := h
    have hlt : i.toNat < D.length := hlen ▸ (List.getElem?_eq_some_iff.mp ha).1
    have hk := Convert.getElem?_of_checkVariable hi hlt hcheck
    rw [hasKind, Scope.find?_eq_some_iff.mpr ⟨hi, hk⟩, beq_self_eq_true]
  | arrow s t ihs iht =>
    simp only [toNamed, Fresh.run_bind_eq_ok, Convert.checkStar_eq_ok] at h
    obtain ⟨_, _, ⟨rfl, rfl⟩, S, _, hs, T, _, ht, _⟩ := h
    simp only [hasKind, ihs hlen hs, iht hlen ht, beq_self_eq_true, Bool.and_self]
  | all j t ih =>
    simp only [toNamed, Fresh.run_bind_eq_ok, Convert.checkStar_eq_ok, NameScope.run_extend] at h
    obtain ⟨_, _, ⟨rfl, rfl⟩, ⟨a, inner⟩, _, hinner, T, _, ht, _⟩ := h
    cases hinner
    have hlen' : (scope.push n).names.length = (j :: D).length := congrArg (· + 1) hlen
    have hbody := ih hlen' ht
    simp only [hasKind, hbody, beq_self_eq_true, Bool.and_self]
  | builtin b =>
    simp only [toNamed, Fresh.run_bind_eq_ok, Convert.checkStar_eq_ok] at h
    obtain ⟨_, _, ⟨rfl, _⟩, _⟩ := h
    rfl
  | lam t ih =>
    cases k with
    | star => exact absurd h Fresh.run_throw_ne_ok
    | arrow j k =>
      simp only [toNamed, Fresh.run_bind_eq_ok, NameScope.run_extend] at h
      obtain ⟨⟨a, inner⟩, _, hinner, T, _, ht, _⟩ := h
      cases hinner
      have hlen' : (scope.push n).names.length = (j :: D).length := congrArg (· + 1) hlen
      exact ih hlen' ht
  | app f t j ihf iht =>
    simp only [toNamed, Fresh.run_bind_eq_ok] at h
    obtain ⟨F, _, hf, T, _, ht, _⟩ := h
    simp only [hasKind, ihf hlen hf, iht hlen ht, Bool.and_self]

end PosTy

/-- Naming decides the kind of a closed type: it succeeds exactly at the kind that the
type has, and whatever it returns is closed and has this kind by name too. -/
theorem naming_decides_the_kind (start : String) (k : Kind) (t : PosTy) (n : Int) :
    ((∃ T m, (t.toNamedClosed (.ofStart start) k).run n = (.ok T, m)) ↔
      t.hasKind [] k = true) ∧
    ∀ T m, (t.toNamedClosed (.ofStart start) k).run n = (.ok T, m) →
      T.free = [] ∧ T.inferKind [] = .ok k := by
  have hkind : ∀ {T m}, (t.toNamedClosed (.ofStart start) k).run n = (.ok T, m) →
      t.hasKind [] k = true :=
    fun h => PosTy.hasKind_of_toNamed rfl h
  constructor
  · constructor
    · rintro ⟨T, m, h⟩
      exact hkind h
    · intro h
      obtain ⟨u, hu⟩ := Denotes.exists_of_hasKind h
      obtain ⟨T, m, hrun, _⟩ := hu.toNamedClosed (.ofStart start) n
      exact ⟨T, m, hrun⟩
  · intro T m h
    obtain ⟨u, hu⟩ := Denotes.exists_of_hasKind (hkind h)
    obtain ⟨T', m', hrun, hT⟩ := hu.toNamedClosed (.ofStart start) n
    rw [h] at hrun
    cases hrun
    have hK := hu.kind?_named_closed hT
    exact ⟨Ty.free_eq_nil_of_kind? hK, Ty.inferKind_eq_ok.mpr hK⟩

/-- A negative reference finds the kind of the outermost binder, but no name. -/
example : ((PosTy.all .star (.var (-1))).toNamedClosed (.ofStart "t") .star).run 0 =
    (.error (.outOfScope ⟨-1, 1⟩), 1) := by rfl

end FomegaLab
