-- Naming and instantiation. On positional types the argument is shifted on its way under
-- binders, and on named types the binders make way for it. Both instantiate the meaning,
-- so it is the same to instantiate a type and to name it first.
import FomegaLab.Proofs.Conversion.Types

namespace FomegaLab

/-! ## Naming without kinds -/

/-- The check of a variable draws nothing. -/
theorem Convert.eq_of_checkVariable {kinds : Option (List Kind)} {i : Int} {k : Kind} {n m : Int}
    {u : Unit} (h : (checkVariable kinds i k).run n = (.ok u, m)) : n = m := by
  unfold checkVariable at h
  split at h
  · exact (Fresh.run_pure_eq_ok.mp h).2
  · split at h
    · exact absurd h Fresh.run_throw_ne_ok
    · exact (Fresh.run_pure_eq_ok.mp h).2
    · split_ifs at h
      · exact (Fresh.run_pure_eq_ok.mp h).2
      · exact absurd h Fresh.run_throw_ne_ok

/-- A type that is named with kinds for the variables in scope is named without them. -/
theorem PosTy.run_toNamed_none {t : PosTy} {scope : NameScope TyName} {kinds : Option (List Kind)}
    {k : Kind} {n m : Int} {T : Ty} (h : (t.toNamed scope kinds k).run n = (.ok T, m)) :
    (t.toNamed scope none k).run n = (.ok T, m) := by
  induction t generalizing scope kinds k n m T with
  | var i =>
    simp only [toNamed, Fresh.run_bind_eq_ok] at h ⊢
    obtain ⟨_, l, hcheck, h⟩ := h
    exact ⟨(), n, rfl, Convert.eq_of_checkVariable hcheck ▸ h⟩
  | builtin b => exact h
  | arrow s t ihs iht =>
    simp only [toNamed, Fresh.run_bind_eq_ok] at h ⊢
    obtain ⟨_, l, hstar, S, _, hs, T, _, ht, h⟩ := h
    exact ⟨_, l, hstar, S, _, ihs hs, T, _, iht ht, h⟩
  | app f t j ihf iht =>
    simp only [toNamed, Fresh.run_bind_eq_ok] at h ⊢
    obtain ⟨F, _, hf, T, _, ht, h⟩ := h
    exact ⟨F, _, ihf hf, T, _, iht ht, h⟩
  | all j t ih =>
    simp only [toNamed, Fresh.run_bind_eq_ok] at h ⊢
    obtain ⟨_, _, hstar, inner, _, hinner, T, _, ht, h⟩ := h
    exact ⟨_, _, hstar, inner, _, hinner, T, _, ih ht, h⟩
  | lam t ih =>
    cases k with
    | star => exact h
    | arrow j k =>
      simp only [toNamed, Fresh.run_bind_eq_ok] at h ⊢
      obtain ⟨inner, _, hinner, T, _, ht, h⟩ := h
      exact ⟨inner, _, hinner, T, _, ih ht, h⟩

namespace Denotes

variable {D : List Kind} {k k' : Kind} {b a t : PosTy} {u v : NamelessTy}

/-- A type that has its kind is named, whether or not the kinds in scope are given. -/
theorem toNamed_of_given (h : Denotes D k t u) {kinds : Option (List Kind)}
    (hkinds : ∀ E ∈ kinds, E = D) {scope : NameScope TyName} {n : Int}
    (hscope : scope.Fits D.length n) :
    ∃ T m, (t.toNamed scope kinds k).run n = (.ok T, m) ∧ NamedSpec n scope.names u T m := by
  obtain ⟨T, m, hrun, hT⟩ := h.toNamed hscope
  cases kinds with
  | none => exact ⟨T, m, PosTy.run_toNamed_none hrun, hT⟩
  | some E => exact ⟨T, m, by rw [hkinds E rfl, hrun], hT⟩

/-! ## Instantiation by name -/

/-- Instantiating the meaning and opening the scope is opening it with one more name and
then substituting for this name. -/
theorem inst_openWith (h : Denotes (k :: D) k' b u) {names : List TyName}
    (hlen : names.length = D.length) {x : TyName} (hx : x ∉ names) :
    (u.inst v).rename (.openWith names) =
      (u.rename (.openWith (x :: names))).subst (.single x (v.rename (.openWith names))) := by
  rw [NamelessTy.inst_rename, ← h.abstract_openWith hlen hx, NamelessTy.abstract_inst]

/-- The named instance is the named body with the named argument put for the name that the
body got for its innermost variable. -/
theorem alphaEq_instantiate (hb : Denotes (k :: D) k' b u) {names : List TyName}
    (hlen : names.length = D.length) {x : TyName} (hx : x ∉ names) {n₁ n₂ n₃ m₁ m₂ m₃ q : Int}
    {B A T : Ty} (hB : NamedSpec n₁ (x :: names) u B m₁) (hA : NamedSpec n₂ names v A m₂)
    (hT : NamedSpec n₃ names (u.inst v) T m₃) (hxq : x.unique < q) (h₁ : m₁ ≤ q) (h₂ : m₂ ≤ q) :
    T.alphaEq (B.subst x A q).1 := by
  have hsubst := Ty.subst_spec (hB.below.mono h₁) hxq (hA.below.mono h₂)
  rw [Ty.alphaEq_iff, hT.nameless_eq, hsubst.nameless_eq, hB.nameless_eq, hA.nameless_eq,
    hb.inst_openWith hlen hx]

end Denotes

/-- Instantiating a type and naming the instance is, up to bound names, naming the type in
the scope with one more name and substituting the named argument for this name. Nothing
depends on which uniques the three conversions and the substitution draw, or on whether
the conversions are given the kinds of the variables. -/
theorem naming_and_instantiation_commute {D : List Kind} {k k' : Kind} {b a : PosTy}
    (hb : b.hasKind (k :: D) k' = true) (ha : a.hasKind D k = true) {scope : NameScope TyName}
    {n : Int} (hlen : scope.names.length = D.length) (hbelow : ∀ c ∈ scope.names, c.unique < n)
    {kinds : Option (List Kind)} (hkinds : ∀ E ∈ kinds, E = D) :
    ∀ p ≥ n, ∃ x inner p', scope.extend p = ((x, inner), p') ∧
      ∀ p₁ ≥ p', ∀ p₂ ≥ n, ∀ p₃ ≥ n, ∃ B m₁ A m₂ T m₃,
        (b.toNamed inner (kinds.map (k :: ·)) k').run p₁ = (.ok B, m₁) ∧
        (a.toNamed scope kinds k).run p₂ = (.ok A, m₂) ∧
        ((b.instantiate a).toNamed scope kinds k').run p₃ = (.ok T, m₃) ∧
        ∀ q ≥ m₁, q ≥ m₂ → T.alphaEq (B.subst x A q).1 := by
  obtain ⟨u, hu⟩ := Denotes.exists_of_hasKind hb
  obtain ⟨v, hv⟩ := Denotes.exists_of_hasKind ha
  have hscope : scope.Fits D.length n := ⟨hlen, hbelow⟩
  have hinner : ∀ E ∈ kinds.map (k :: ·), E = k :: D := by
    intro E hE
    obtain ⟨E', hE', rfl⟩ := Option.map_eq_some_iff.mp hE
    rw [hkinds E' hE']
  intro p hp
  refine ⟨scope.next p, scope.push p, p + 1, rfl, ?_⟩
  intro p₁ hp₁ p₂ hp₂ p₃ hp₃
  have hpush : (scope.push p).Fits (k :: D).length p₁ := (hscope.mono hp).push.mono hp₁
  obtain ⟨B, m₁, hrunB, hB⟩ := hu.toNamed_of_given hinner hpush
  obtain ⟨A, m₂, hrunA, hA⟩ := hv.toNamed_of_given hkinds (hscope.mono hp₂)
  obtain ⟨T, m₃, hrunT, hT⟩ := (hu.instantiate hv).toNamed_of_given hkinds (hscope.mono hp₃)
  refine ⟨B, m₁, A, m₂, T, m₃, hrunB, hrunA, hrunT, fun q h₁ h₂ => ?_⟩
  have hxq : (scope.next p).unique < q :=
    Int.lt_of_lt_of_le (Int.lt_of_lt_of_le (Int.lt_succ p) hp₁) (Int.le_trans hB.le h₁)
  exact hu.alphaEq_instantiate hlen (hscope.mono hp).next_not_mem hB hA hT hxq h₁ h₂

/-- A lambda that refers to a name in scope goes under a binder. -/
theorem naming_and_instantiation_commute_under_a_binder :
    let b : PosTy := .all .star (.arrow (.app (.var 1) (.var 0) .star) (.var 2))
    let a : PosTy := .lam (.var 1)
    let k : Kind := .arrow .star .star
    let scope : NameScope TyName := ⟨[⟨"a", 0⟩], .ofStart "t"⟩
    b.hasKind [k, .star] .star = true ∧ a.hasKind [.star] k = true ∧ scope.names.length = 1 ∧
      (∀ c ∈ scope.names, c.unique < 1) ∧
      ∃ x inner p', scope.extend 1 = ((x, inner), p') ∧ ∃ B m₁ A m₂ T m₃,
        (b.toNamed inner (some [k, .star]) .star).run p' = (.ok B, m₁) ∧
        (a.toNamed scope (some [.star]) k).run 1 = (.ok A, m₂) ∧
        ((b.instantiate a).toNamed scope (some [.star]) .star).run 1 = (.ok T, m₃) ∧
        ∀ q ≥ m₁, q ≥ m₂ → T.alphaEq (B.subst x A q).1 := by
  intro b a k scope
  have hb : b.hasKind [k, .star] .star = true := by decide
  have ha : a.hasKind [.star] k = true := by decide
  have hlen : scope.names.length = [Kind.star].length := rfl
  have hbelow : ∀ c ∈ scope.names, c.unique < 1 := by decide
  have hkinds : ∀ E ∈ some [Kind.star], E = [Kind.star] := by
    rintro E ⟨⟩
    rfl
  have hle : (1 : Int) ≥ 1 := Int.le_refl 1
  obtain ⟨x, inner, p', hextend, h⟩ :=
    naming_and_instantiation_commute hb ha hlen hbelow hkinds 1 hle
  exact ⟨hb, ha, rfl, hbelow, x, inner, p', hextend, h p' (Int.le_refl p') 1 hle 1 hle⟩

end FomegaLab
