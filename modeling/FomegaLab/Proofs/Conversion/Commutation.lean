-- Naming and normalization commute. The two normalizers share nothing: one shifts
-- references and the other one renames binders. But both follow the evaluation of
-- the meaning, so they finish together and with the same nameless type.
import FomegaLab.Proofs.Conversion.Types
import FomegaLab.Property.Laws

namespace FomegaLab

open NamelessTy (NormalForm Evals)

/-- A type and its named form have named normal forms that are the same up to bound
names, whoever normalized first. -/
theorem Denotes.alphaEq_of_normalize {D : List Kind} {k : Kind} {t t' : PosTy} {u : NamelessTy}
    {names : List TyName} {n n' m m' : Int} {T N T' : Ty} (h : Denotes D k t u)
    (hT : NamedSpec n names u T m) (hN : NormalForm T.nameless N.nameless) {fuel : Nat}
    (ht : t.normalize fuel = some t') {u' : NamelessTy} (h' : Denotes D k t' u')
    (hT' : NamedSpec n' names u' T' m') : N.alphaEq T' = true := by
  obtain ⟨u'', hu'', hn⟩ := h.normalize ht
  cases hu''.unique h'
  rw [Ty.alphaEq_iff, hT'.nameless_eq]
  rw [hT.nameless_eq] at hN
  exact hN.unique (hn.rename _)

/-! ## The law of commutation -/

namespace Laws

variable {n m : Int}

theorem run_converted {α : Type} {c : Convert α} {a : α} (h : c.run n = (.ok a, m)) :
    (converted c).run n = (.ok a, m) :=
  Fresh.run_bind_eq_ok.mpr
    ⟨.ok a, m, Fresh.run_lift_eq_ok.mpr h, Fresh.run_pure_eq_ok.mpr ⟨rfl, rfl⟩⟩

theorem run_kindChecked {blame : TypeFault → Failure} {t : Ty} {k : Kind}
    (h : t.nameless.kind? (.ofNames fun _ => none) = some k) :
    (kindChecked blame t k).run n = (.ok (), n) := by
  have hcheck : t.checkKind [] k = .ok () := Ty.checkKind_eq_ok.mpr h
  rw [kindChecked, hcheck]
  rfl

theorem run_normalForm {fuel : Nat} {t t' : Ty} (h : (t.normalize fuel).run n = (some t', m)) :
    (normalForm fuel t).run n = (.ok t', m) :=
  Fresh.run_bind_eq_ok.mpr
    ⟨some t', m, Fresh.run_lift_eq_ok.mpr h, Fresh.run_pure_eq_ok.mpr ⟨rfl, rfl⟩⟩

theorem run_normalForm_unfinished {fuel : Nat} {t : Ty}
    (h : (t.normalize fuel).run n = (none, m)) :
    (normalForm fuel t).run n = (.error (.breakdown .unfinished), m) := by
  rw [normalForm, Fresh.run_bind_of_ok (Fresh.run_lift_eq_ok.mpr h)]
  rfl

/-- On a type of the kind that is asked for, the law holds, unless the fuel is too little
for the meaning of the type. -/
theorem normalizationCommutes_cases {k : Kind} {t : PosTy} {u : NamelessTy}
    (h : Denotes [] k t u) (fuel : Nat) (n : Int) :
    ((normalizationCommutes fuel k t).run n).1 = .ok () ∨
      ((normalizationCommutes fuel k t).run n).1 = .error (.breakdown .unfinished) ∧
        ∀ d v, Evals d u v → fuel < d := by
  obtain ⟨T, l, hrun, hT⟩ := h.toNamedClosed tyTexts n
  have hnamed : (namedType k t).run n = (.ok T, l) := by
    rw [namedType, Fresh.run_bind_of_ok (run_converted hrun),
      Fresh.run_bind_of_ok (run_kindChecked (h.kind?_named_closed hT))]
    rfl
  have hname : T.nameless = u := by
    rw [hT.nameless_eq, Ref.openWith_nil, NamelessTy.rename_id]
  rw [normalizationCommutes, Fresh.run_bind_of_ok hnamed]
  cases hout : (T.normalize fuel).run l with
  | mk out l₁ =>
    cases out with
    | none =>
      rw [Fresh.run_bind_of_error (run_normalForm_unfinished hout)]
      refine Or.inr ⟨rfl, fun d v hd => Nat.lt_of_not_le fun hfuel => ?_⟩
      rw [← hname] at hd
      obtain ⟨N, l', hN, _⟩ := Ty.exists_normalize_of_evals hd hfuel hT.below
      rw [hout] at hN
      cases hN
    | some N =>
      obtain ⟨hle, hbN, hN⟩ := Ty.normalize_sound hT.below hout
      rw [Fresh.run_bind_of_ok (run_normalForm hout),
        Fresh.run_bind_of_ok (run_kindChecked (hN.steps.kind? (h.kind?_named_closed hT)))]
      cases hnormal : t.normalize fuel with
      | none =>
        simp only [positionalNormalForm, hnormal]
        refine Or.inr ⟨rfl, fun d v hd => Nat.lt_of_not_le fun hfuel => ?_⟩
        obtain ⟨t', ht', _⟩ := Denotes.normalize_of_evals hd hfuel h
        rw [hnormal] at ht'
        cases ht'
      | some t' =>
        obtain ⟨u', hu', _⟩ := h.normalize hnormal
        obtain ⟨T', l₂, hrun', hT'⟩ := hu'.toNamedClosed tyTexts l₁
        have halpha := h.alphaEq_of_normalize hT hN hnormal hu' hT'
        simp only [positionalNormalForm, hnormal, pure_bind]
        rw [Fresh.run_bind_of_ok (run_converted hrun'), if_pos halpha]
        exact Or.inl rfl

end Laws

/-- Naming a type and normalizing what comes out is, up to bound names, normalizing the
type and naming what comes out. For closed types this is the law that the property
checks: it never finds the law broken, and with enough fuel it finds it to hold. -/
theorem naming_and_normalization_commute {D : List Kind} {k : Kind} {t : PosTy}
    (hk : t.hasKind D k = true) {scope : NameScope TyName} {n : Int}
    (hlen : scope.names.length = D.length) (hbelow : ∀ a ∈ scope.names, a.unique < n) :
    (∃ d, ∀ fuel ≥ d, ∃ t' T m N l, t.normalize fuel = some t' ∧
      (t.toNamed scope (some D) k).run n = (.ok T, m) ∧ (T.normalize fuel).run m = (some N, l) ∧
        ∀ p ≥ n, ∃ T' q,
          (t'.toNamed scope (some D) k).run p = (.ok T', q) ∧ N.alphaEq T' = true) ∧
    (D = [] →
      (∀ fuel p f, ((Laws.normalizationCommutes fuel k t).run p).1 ≠ .error (.failure f)) ∧
        ∃ d, ∀ fuel ≥ d, ∀ p, ((Laws.normalizationCommutes fuel k t).run p).1 = .ok ()) := by
  obtain ⟨u, hu⟩ := Denotes.exists_of_hasKind hk
  have hscope : scope.Fits D.length n := ⟨hlen, hbelow⟩
  obtain ⟨d, v, hd⟩ := NamelessTy.exists_evals hu.kind?_eq
  constructor
  · obtain ⟨T, m, hrun, hT⟩ := hu.toNamed hscope
    refine ⟨d, ?_⟩
    intro fuel hfuel
    obtain ⟨t', ht', hv⟩ := Denotes.normalize_of_evals hd hfuel hu
    have hevals := hd.rename (.openWith scope.names)
    rw [← hT.nameless_eq] at hevals
    obtain ⟨N, l, hN, hspec⟩ := Ty.exists_normalize_of_evals hevals hfuel hT.below
    refine ⟨t', T, m, N, l, ht', hrun, hN, ?_⟩
    intro p hp
    obtain ⟨T', q, hrun', hT'⟩ := hv.toNamed (hscope.mono hp)
    exact ⟨T', q, hrun', hu.alphaEq_of_normalize hT hspec.normalForm ht' hv hT'⟩
  · rintro rfl
    constructor
    · intro fuel p f hf
      rcases Laws.normalizationCommutes_cases hu fuel p with h | ⟨h, _⟩
      · rw [h] at hf
        cases hf
      · rw [h] at hf
        cases hf
    · refine ⟨d, ?_⟩
      intro fuel hfuel p
      rcases Laws.normalizationCommutes_cases hu fuel p with h | ⟨_, hlt⟩
      · exact h
      · have := hlt d v hd
        omega

/-- A redex whose body refers to a name in scope, and a redex under a lambda. -/
theorem naming_and_normalization_commute_on_redexes :
    let t : PosTy := .app (.lam (.arrow (.var 0) (.var 1))) (.var 0) .star
    let scope : NameScope TyName := ⟨[⟨"a", 0⟩], .ofStart "t"⟩
    let c : PosTy := .lam (.app (.lam (.var 0)) (.var 0) .star)
    (t.hasKind [.star] .star = true ∧ scope.names.length = 1 ∧
      (∀ a ∈ scope.names, a.unique < 1) ∧
      ∃ d, ∀ fuel ≥ d, ∃ t' T m N l, t.normalize fuel = some t' ∧
        (t.toNamed scope (some [.star]) .star).run 1 = (.ok T, m) ∧
        (T.normalize fuel).run m = (some N, l) ∧ ∀ p ≥ 1, ∃ T' q,
          (t'.toNamed scope (some [.star]) .star).run p = (.ok T', q) ∧ N.alphaEq T' = true) ∧
    c.hasKind [] (.arrow .star .star) = true ∧
      ∃ d, ∀ fuel ≥ d, ∀ p,
        ((Laws.normalizationCommutes fuel (.arrow .star .star) c).run p).1 = .ok () := by
  intro t scope c
  have hk : t.hasKind [.star] .star = true := by decide
  have hbelow : ∀ a ∈ scope.names, a.unique < 1 := by decide
  have hkc : c.hasKind [] (.arrow .star .star) = true := by decide
  have hempty : (NameScope.empty Laws.tyTexts : NameScope TyName).names.length = 0 := rfl
  have hlen : scope.names.length = [Kind.star].length := rfl
  have hopen := (naming_and_normalization_commute hk hlen hbelow).1
  have hclosed := (naming_and_normalization_commute hkc hempty (n := 0) nofun).2 rfl
  exact ⟨⟨hk, rfl, hbelow, hopen⟩, hkc, hclosed.2⟩

end FomegaLab
