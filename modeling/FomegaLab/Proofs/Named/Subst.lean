-- Substitution in named types is substitution in their nameless forms, whichever
-- binders are renamed on the way. New names are new because every unique in the
-- types is below the next one.
import FomegaLab.Named.Subst
import FomegaLab.Proofs.Named.Nameless

namespace FomegaLab.Ty

/-- Every unique in the type, at binders too, is below `n`. -/
def Below (n : Int) : Ty → Prop
  | .var a => a.unique < n
  | .arrow argument result => argument.Below n ∧ result.Below n
  | .all a _ body => a.unique < n ∧ body.Below n
  | .lam a _ body => a.unique < n ∧ body.Below n
  | .app function argument => function.Below n ∧ argument.Below n
  | .builtin _ => True

theorem Below.mono {n m : Int} {t : Ty} (h : t.Below n) (hnm : n ≤ m) : t.Below m := by
  induction t with
  | var a => exact Int.lt_of_lt_of_le h hnm
  | builtin => trivial
  | arrow s t ihs iht | app s t ihs iht => exact ⟨ihs h.1, iht h.2⟩
  | all a k t ih | lam a k t ih => exact ⟨Int.lt_of_lt_of_le h.1 hnm, ih h.2⟩

theorem Below.unique_lt {n : Int} {t : Ty} (h : t.Below n) {a : TyName}
    (ha : t.nameless.Occurs (.free a)) : a.unique < n := by
  induction t with
  | var b =>
    cases ha
    exact h
  | builtin => exact ha.elim
  | arrow s t ihs iht | app s t ihs iht => exact ha.elim (ihs h.1) (iht h.2)
  | all b k t ih | lam b k t ih => exact ih h.2 (NamelessTy.occurs_abstract.mp ha).1

/-- The next name occurs nowhere. -/
theorem Below.not_occurs {n : Int} {t : Ty} (h : t.Below n) (text : String) :
    ¬ t.nameless.Occurs (.free (NameSort.make text n)) :=
  fun hc => Int.lt_irrefl n (h.unique_lt hc)

/-- Renaming a binder does not change the size. -/
theorem size_substWithin_var (n : Nat) (captured : List TyName) (a c : TyName) (t : Ty) (k : Int) :
    (substWithin n captured a (.var c) t k).1.size = t.size := by
  induction n generalizing captured a c t k with
  | zero => rfl
  | succ n ih =>
    cases t with
    | var b =>
      unfold substWithin
      split_ifs <;> rfl
    | builtin => rfl
    | arrow | app => simp [substWithin, size, ih]
    | all b kind body | lam b kind body =>
      unfold substWithin
      split_ifs <;> simp [size, ih]

/-- What a substitution gives: the supply only grows, the uniques stay below it, and
the nameless form is the substituted one. -/
structure SubstSpec (n : Int) (t : Ty) (a : TyName) (replacement : Ty) (out : Ty × Int) : Prop where
  le : n ≤ out.2
  below : out.1.Below out.2
  nameless_eq : out.1.nameless =
    t.nameless.subst (NamelessTy.Subst.single a replacement.nameless)

/-- The substitution instantiates the binder that the name was turned into. -/
theorem SubstSpec.nameless_eq_inst {n : Int} {t : Ty} {a : TyName} {replacement : Ty}
    {out : Ty × Int} (h : SubstSpec n t a replacement out) :
    out.1.nameless = (t.nameless.abstract a).inst replacement.nameless := by
  rw [h.nameless_eq, NamelessTy.abstract_inst]

/-- The cases of the two binders differ in the constructor only. The first argument
is `all` or `lam` with its kind, and the second one its nameless form. -/
theorem substSpec_binder (binder : TyName → Ty → Ty) (binder' : NamelessTy → NamelessTy)
    (hbelow : ∀ {b t n}, (binder b t).Below n ↔ b.unique < n ∧ t.Below n)
    (hnameless : ∀ b t, (binder b t).nameless = binder' (t.nameless.abstract b))
    (hsubst : ∀ (σ : NamelessTy.Subst) t, (binder' t).subst σ = binder' (t.subst σ.lift))
    {n : Nat} {captured : List TyName} {a b : TyName} {replacement body : Ty}
    (ih : ∀ {captured : List TyName} {a : TyName} {replacement body : Ty} {m : Int},
      body.size ≤ n → (∀ b ∈ replacement.free, b ∈ captured) → body.Below m → a.unique < m →
        replacement.Below m →
        SubstSpec m body a replacement (substWithin n captured a replacement body m))
    (hn : body.size ≤ n) (hc : ∀ b ∈ replacement.free, b ∈ captured) {m : Int}
    (hb : b.unique < m) (hbody : body.Below m) (ha : a.unique < m) (hr : replacement.Below m) :
    SubstSpec m (binder b body) a replacement
      ((if b = a then pure (binder b body)
        else if b ∈ captured then do
          let c ← fresh b.text
          let body ← substWithin n [c] b (.var c) body
          let body ← substWithin n captured a replacement body
          return binder c body
        else do
          let body ← substWithin n captured a replacement body
          return binder b body : Fresh Ty) m) := by
  split_ifs with hba hcap
  · subst hba
    refine ⟨Int.le_refl m, hbelow.mpr ⟨hb, hbody⟩, ?_⟩
    rw [Fresh.pure_apply, hnameless, hsubst, NamelessTy.abstract_subst_single_self]
  · -- the binder gets the name `c`, which occurs neither in the body nor in the replacement
    obtain ⟨c, hcdef⟩ : ∃ c : TyName, c = NameSort.make b.text m := ⟨_, rfl⟩
    have hcm : c.unique = m := by rw [hcdef]; rfl
    have hm : m ≤ m + 1 := by omega
    have hcbody : ¬ body.nameless.Occurs (.free c) := hcdef ▸ hbody.not_occurs b.text
    have hcr : ¬ replacement.nameless.Occurs (.free c) := hcdef ▸ hr.not_occurs b.text
    have hca : c ≠ a := fun h => by rw [← h, hcm] at ha; exact Int.lt_irrefl _ ha
    have hrenamed : SubstSpec (m + 1) body b (.var c)
        (substWithin n [c] b (.var c) body (m + 1)) :=
      ih hn (by simp [free]) (hbody.mono hm) (by omega) (show c.unique < m + 1 by omega)
    obtain ⟨hle₁, hbelow₁, hname₁⟩ := hrenamed
    have hsize : (substWithin n [c] b (.var c) body (m + 1)).1.size ≤ n := by
      rw [size_substWithin_var]
      exact hn
    simp only [Fresh.bind_apply, fresh_apply, Fresh.pure_apply, ← hcdef]
    generalize substWithin n [c] b (.var c) body (m + 1) = renamed at *
    obtain ⟨hle₂, hbelow₂, hname₂⟩ := ih (a := a) (m := renamed.2) hsize hc hbelow₁
      (by omega) (hr.mono (by omega))
    refine ⟨by omega, hbelow.mpr ⟨by omega, hbelow₂⟩, ?_⟩
    rw [hnameless, hnameless, hsubst, hname₂, ← NamelessTy.abstract_subst_single hca hcr, hname₁,
      nameless, NamelessTy.abstract_subst_var hcbody]
  · have hbr : ¬ replacement.nameless.Occurs (.free b) := fun h => hcap (hc b (mem_free.mpr h))
    obtain ⟨hle, hbelow', hname⟩ := ih hn hc hbody ha hr
    simp only [Fresh.bind_apply, Fresh.pure_apply]
    refine ⟨hle, hbelow.mpr ⟨by omega, hbelow'⟩, ?_⟩
    rw [hnameless, hnameless, hsubst, hname, NamelessTy.abstract_subst_single hba hbr]

theorem substWithin_spec {n : Nat} {captured : List TyName} {a : TyName} {replacement t : Ty}
    {m : Int} (hn : t.size ≤ n) (hc : ∀ b ∈ replacement.free, b ∈ captured) (ht : t.Below m)
    (ha : a.unique < m) (hr : replacement.Below m) :
    SubstSpec m t a replacement (substWithin n captured a replacement t m) := by
  induction n generalizing captured a replacement t m with
  | zero => cases t <;> simp [size] at hn
  | succ n ih =>
    cases t with
    | var b =>
      unfold substWithin
      by_cases hba : b = a
      · refine ⟨Int.le_refl m, by simpa [hba] using hr, ?_⟩
        simp [hba, nameless, NamelessTy.subst, NamelessTy.Subst.single]
      · refine ⟨Int.le_refl m, by simpa [hba] using ht, ?_⟩
        simp [hba, nameless, NamelessTy.subst, NamelessTy.Subst.single]
    | builtin b => exact ⟨Int.le_refl m, trivial, rfl⟩
    | arrow s t | app s t =>
      simp only [size] at hn
      obtain ⟨hle₁, hbelow₁, hname₁⟩ := ih (t := s) (by omega) hc ht.1 ha hr
      simp only [substWithin, Fresh.bind_apply, Fresh.pure_apply]
      generalize substWithin n captured a replacement s m = out at *
      obtain ⟨hle₂, hbelow₂, hname₂⟩ := ih (a := a) (t := t) (m := out.2) (by omega) hc
        (ht.2.mono hle₁) (by omega) (hr.mono hle₁)
      refine ⟨by omega, ⟨hbelow₁.mono hle₂, hbelow₂⟩, ?_⟩
      simp only [nameless, NamelessTy.subst, hname₁, hname₂]
    | all b kind body =>
      simp only [size] at hn
      exact substSpec_binder (all · kind ·) (.all kind) Iff.rfl (fun _ _ => rfl) (fun _ _ => rfl)
        ih (by omega) hc ht.1 ht.2 ha hr
    | lam b kind body =>
      simp only [size] at hn
      exact substSpec_binder (lam · kind ·) (.lam kind) Iff.rfl (fun _ _ => rfl) (fun _ _ => rfl)
        ih (by omega) hc ht.1 ht.2 ha hr

/-- Substitution in a named type is substitution in its nameless form. -/
theorem subst_spec {t replacement : Ty} {a : TyName} {m : Int} (ht : t.Below m)
    (ha : a.unique < m) (hr : replacement.Below m) :
    SubstSpec m t a replacement (t.subst a replacement m) :=
  substWithin_spec (Nat.le_refl _) (fun _ h => h) ht ha hr

end FomegaLab.Ty

/-! ## Uniques in terms -/

namespace FomegaLab.Term

/-- Every unique in the term, at binders and in types too, is below `n`. -/
def Below (n : Int) : Term → Prop
  | .var x => x.unique < n
  | .lam x declared body => x.unique < n ∧ declared.Below n ∧ body.Below n
  | .app function argument => function.Below n ∧ argument.Below n
  | .tyLam a _ body => a.unique < n ∧ body.Below n
  | .inst term type => term.Below n ∧ type.Below n
  | .const _ => True
  | .error declared => declared.Below n

theorem Below.mono {n m : Int} {t : Term} (h : t.Below n) (hnm : n ≤ m) : t.Below m := by
  induction t with
  | var x => exact Int.lt_of_lt_of_le h hnm
  | const => trivial
  | error declared => exact Ty.Below.mono h hnm
  | app f t ihf iht => exact ⟨ihf h.1, iht h.2⟩
  | lam x declared body ih =>
    exact ⟨Int.lt_of_lt_of_le h.1 hnm, h.2.1.mono hnm, ih h.2.2⟩
  | tyLam a k body ih => exact ⟨Int.lt_of_lt_of_le h.1 hnm, ih h.2⟩
  | inst t type ih => exact ⟨ih h.1, h.2.mono hnm⟩

end FomegaLab.Term
