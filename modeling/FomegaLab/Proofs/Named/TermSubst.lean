-- Substitution in named terms, of types and of terms, is substitution in their nameless
-- forms, whichever binders of either sort get new names on the way.
import FomegaLab.Proofs.Erasure
import FomegaLab.Proofs.Named.Subst
import FomegaLab.Proofs.Nameless.TermSubst

namespace FomegaLab.Term

/-! ## Free names -/

theorem mem_free {t : Term} {x : Name} : x ∈ t.free ↔ t.nameless.Occurs (.free x) := by
  induction t with
  | var y => simp [free, nameless, NamelessTerm.Occurs, eq_comm]
  | const | error => simp [free, nameless, NamelessTerm.Occurs]
  | app f t ihf iht => simp [free, nameless, NamelessTerm.Occurs, ihf, iht]
  | inst t type ih => simp only [free, nameless, NamelessTerm.Occurs, ih]
  | tyLam a k body ih =>
    simp only [free, nameless, NamelessTerm.Occurs, NamelessTerm.occurs_abstractTy, ih]
  | lam y type body ih =>
    have hxy := NamelessTerm.occurs_abstract (t := body.nameless) (x := y) (r := .free x)
    simp only [free, List.mem_filter, bne_iff_ne, ih, nameless, NamelessTerm.Occurs, hxy, ne_eq,
      Ref.free.injEq]

theorem mem_freeTypes {t : Term} {a : TyName} :
    a ∈ t.freeTypes ↔ t.nameless.OccursTy (.free a) := by
  induction t with
  | var | const => simp [freeTypes, nameless, NamelessTerm.OccursTy]
  | error type => exact Ty.mem_free
  | app f t ihf iht => simp [freeTypes, nameless, NamelessTerm.OccursTy, ihf, iht]
  | inst t type ih => simp [freeTypes, nameless, NamelessTerm.OccursTy, ih, Ty.mem_free]
  | lam y type body ih =>
    simp [freeTypes, nameless, NamelessTerm.OccursTy, NamelessTerm.occursTy_abstract, ih,
      Ty.mem_free]
  | tyLam b k body ih =>
    have hab := NamelessTerm.occursTy_abstractTy (t := body.nameless) (a := b) (r := .free a)
    simp only [freeTypes, List.mem_filter, bne_iff_ne, ih, nameless, NamelessTerm.OccursTy, hab,
      ne_eq, Ref.free.injEq]

theorem Below.unique_lt {n : Int} {t : Term} (h : t.Below n) {x : Name}
    (hx : t.nameless.Occurs (.free x)) : x.unique < n := by
  induction t with
  | var y =>
    cases hx
    exact h
  | const | error => exact hx.elim
  | app f t ihf iht => exact hx.elim (ihf h.1) (iht h.2)
  | inst t type ih => exact ih h.1 hx
  | tyLam a k body ih => exact ih h.2 (NamelessTerm.occurs_abstractTy.mp hx)
  | lam y type body ih => exact ih h.2.2 (NamelessTerm.occurs_abstract.mp hx).1

theorem Below.unique_lt_of_occursTy {n : Int} {t : Term} (h : t.Below n) {a : TyName}
    (ha : t.nameless.OccursTy (.free a)) : a.unique < n := by
  induction t with
  | var | const => exact ha.elim
  | error type => exact Ty.Below.unique_lt h ha
  | app f t ihf iht => exact ha.elim (ihf h.1) (iht h.2)
  | inst t type ih => exact ha.elim (ih h.1) h.2.unique_lt
  | tyLam b k body ih => exact ih h.2 (NamelessTerm.occursTy_abstractTy.mp ha).1
  | lam y type body ih =>
    exact ha.elim h.2.1.unique_lt fun ha => ih h.2.2 (NamelessTerm.occursTy_abstract.mp ha)

/-- The next name occurs nowhere. -/
theorem Below.not_occurs {n : Int} {t : Term} (h : t.Below n) (text : String) :
    ¬ t.nameless.Occurs (.free (NameSort.make text n)) :=
  fun hx => Int.lt_irrefl n (h.unique_lt hx)

theorem Below.not_occursTy {n : Int} {t : Term} (h : t.Below n) (text : String) :
    ¬ t.nameless.OccursTy (.free (NameSort.make text n)) :=
  fun ha => Int.lt_irrefl n (h.unique_lt_of_occursTy ha)

/-! ## Computations that rebuild a term -/

/-- What comes out of a computation that starts with the supply `n`: the supply only grows,
the uniques stay below it, and the term has the nameless form `u`. -/
structure StandsFor (n : Int) (u : NamelessTerm) (out : Term × Int) : Prop where
  le : n ≤ out.2
  below : out.1.Below out.2
  nameless_eq : out.1.nameless = u

namespace StandsFor

variable {n m : Int} {u v : NamelessTerm} {out out' : Term × Int} {type : Ty}

theorem unchanged {t : Term} (ht : t.Below n) : StandsFor n t.nameless (t, n) :=
  ⟨Int.le_refl n, ht, rfl⟩

theorem app (hf : StandsFor n u out) (ht : StandsFor out.2 v out') :
    StandsFor n (.app u v) (.app out.1 out'.1, out'.2) :=
  ⟨Int.le_trans hf.le ht.le, ⟨hf.below.mono ht.le, ht.below⟩,
    congrArg₂ NamelessTerm.app hf.nameless_eq ht.nameless_eq⟩

theorem inst (ht : StandsFor n u out) (hle : out.2 ≤ m) (htype : type.Below m) :
    StandsFor n (.inst u type.nameless) (.inst out.1 type, m) :=
  ⟨Int.le_trans ht.le hle, ⟨ht.below.mono hle, htype⟩,
    congrArg (NamelessTerm.inst · type.nameless) ht.nameless_eq⟩

theorem lam {y : Name} (hle : n ≤ m) (hy : y.unique < m) (htype : type.Below m)
    (hbody : StandsFor m u out) :
    StandsFor n (.lam type.nameless (u.abstract y)) (.lam y type out.1, out.2) := by
  refine ⟨Int.le_trans hle hbody.le, ⟨Int.lt_of_lt_of_le hy hbody.le, htype.mono hbody.le,
    hbody.below⟩, ?_⟩
  rw [nameless, hbody.nameless_eq]

theorem tyLam {b : TyName} (kind : Kind) (hle : n ≤ m) (hb : b.unique < m)
    (hbody : StandsFor m u out) :
    StandsFor n (.tyLam kind (u.abstractTy b)) (.tyLam b kind out.1, out.2) := by
  refine ⟨Int.le_trans hle hbody.le, ⟨Int.lt_of_lt_of_le hb hbody.le, hbody.below⟩, ?_⟩
  rw [nameless, hbody.nameless_eq]

/-! ### Substitution under a binder

A binder that would capture gets the next name, which occurs neither in the body nor in what is
put in. The body is renamed first and then substituted in. -/

section Binders

variable {x y : Name} {a b : TyName} {s : Ty} {kind : Kind} {body v : Term}
  {renamed : Term × Int}

theorem subst_lam (hyx : y ≠ x) (hv : ¬ v.nameless.Occurs (.free y))
    (ht : (Term.lam y type body).Below m)
    (hbody : StandsFor m (body.nameless.subst .var (.single x v.nameless)) out) :
    StandsFor m ((Term.lam y type body).nameless.subst .var (.single x v.nameless))
      (.lam y type out.1, out.2) := by
  rw [nameless, NamelessTerm.subst, NamelessTy.subst_var,
    NamelessTerm.abstract_subst_single hyx hv]
  exact .lam (Int.le_refl m) ht.1 ht.2.1 hbody

theorem subst_lam_renamed (ht : (Term.lam y type body).Below m) (hx : x.unique < m)
    (hv : v.Below m)
    (hrenamed : StandsFor (m + 1)
      (body.nameless.subst .var (.single y (var (NameSort.make y.text m)).nameless)) renamed)
    (hbody : StandsFor renamed.2 (renamed.1.nameless.subst .var (.single x v.nameless)) out) :
    StandsFor m ((Term.lam y type body).nameless.subst .var (.single x v.nameless))
      (.lam (NameSort.make y.text m) type out.1, out.2) := by
  have hne : NameSort.make y.text m ≠ x := by
    rintro rfl
    exact Int.lt_irrefl m hx
  have hle := hrenamed.le
  rw [nameless, NamelessTerm.subst, NamelessTy.subst_var,
    ← NamelessTerm.abstract_subst_var (ht.2.2.not_occurs y.text),
    NamelessTerm.abstract_subst_single hne (hv.not_occurs y.text), ← nameless,
    ← hrenamed.nameless_eq]
  exact .lam (by omega) hle (ht.2.1.mono (by omega)) hbody

theorem subst_tyLam (hv : ¬ v.nameless.OccursTy (.free b)) (ht : (Term.tyLam b kind body).Below m)
    (hbody : StandsFor m (body.nameless.subst .var (.single x v.nameless)) out) :
    StandsFor m ((Term.tyLam b kind body).nameless.subst .var (.single x v.nameless))
      (.tyLam b kind out.1, out.2) := by
  rw [nameless, NamelessTerm.subst, NamelessTy.Subst.lift_var,
    NamelessTerm.abstractTy_subst_single hv]
  exact .tyLam kind (Int.le_refl m) ht.1 hbody

theorem subst_tyLam_renamed (ht : (Term.tyLam b kind body).Below m) (hv : v.Below m)
    (hrenamed : StandsFor (m + 1)
      (body.nameless.subst (.single b (Ty.var (NameSort.make b.text m)).nameless) .var) renamed)
    (hbody : StandsFor renamed.2 (renamed.1.nameless.subst .var (.single x v.nameless)) out) :
    StandsFor m ((Term.tyLam b kind body).nameless.subst .var (.single x v.nameless))
      (.tyLam (NameSort.make b.text m) kind out.1, out.2) := by
  have hle := hrenamed.le
  rw [nameless, NamelessTerm.subst, NamelessTy.Subst.lift_var,
    ← NamelessTerm.abstractTy_substTy_var (ht.2.not_occursTy b.text),
    NamelessTerm.abstractTy_subst_single (hv.not_occursTy b.text), ← Ty.nameless,
    ← hrenamed.nameless_eq]
  exact .tyLam kind (by omega) hle hbody

theorem substTy_tyLam (hba : b ≠ a) (hs : ¬ s.nameless.Occurs (.free b))
    (ht : (Term.tyLam b kind body).Below m)
    (hbody : StandsFor m (body.nameless.subst (.single a s.nameless) .var) out) :
    StandsFor m ((Term.tyLam b kind body).nameless.subst (.single a s.nameless) .var)
      (.tyLam b kind out.1, out.2) := by
  rw [nameless, NamelessTerm.subst, NamelessTerm.Subst.liftTy_var,
    NamelessTerm.abstractTy_substTy_single hba hs]
  exact .tyLam kind (Int.le_refl m) ht.1 hbody

theorem substTy_tyLam_renamed (ht : (Term.tyLam b kind body).Below m) (ha : a.unique < m)
    (hs : s.Below m)
    (hrenamed : StandsFor (m + 1)
      (body.nameless.subst (.single b (Ty.var (NameSort.make b.text m)).nameless) .var) renamed)
    (hbody : StandsFor renamed.2 (renamed.1.nameless.subst (.single a s.nameless) .var) out) :
    StandsFor m ((Term.tyLam b kind body).nameless.subst (.single a s.nameless) .var)
      (.tyLam (NameSort.make b.text m) kind out.1, out.2) := by
  have hne : NameSort.make b.text m ≠ a := by
    rintro rfl
    exact Int.lt_irrefl m ha
  have hle := hrenamed.le
  rw [nameless, NamelessTerm.subst, NamelessTerm.Subst.liftTy_var,
    ← NamelessTerm.abstractTy_substTy_var (ht.2.not_occursTy b.text),
    NamelessTerm.abstractTy_substTy_single hne (hs.not_occurs b.text), ← Ty.nameless,
    ← hrenamed.nameless_eq]
  exact .tyLam kind (by omega) hle hbody

end Binders

end StandsFor

/-! ## Types in terms -/

theorem substTypeWithin_spec {n : Nat} {captured : List TyName} {a : TyName} {replacement : Ty}
    {t : Term} {m : Int} (hn : t.size ≤ n) (hc : ∀ b ∈ replacement.free, b ∈ captured)
    (ht : t.Below m) (ha : a.unique < m) (hr : replacement.Below m) :
    StandsFor m (t.nameless.subst (.single a replacement.nameless) .var)
      (substTypeWithin n captured a replacement t m) := by
  induction n generalizing captured a replacement t m with
  | zero => cases t <;> simp [size] at hn
  | succ n ih =>
    cases t with
    | var | const => exact .unchanged ht
    | error type =>
      have htype := Ty.subst_spec ht ha hr
      exact ⟨htype.le, htype.below, congrArg NamelessTerm.error htype.nameless_eq⟩
    | app f t =>
      simp only [size] at hn
      have hf := ih (t := f) (by omega) hc ht.1 ha hr
      have harg := ih (t := t) (by omega) hc (ht.2.mono hf.le) (Int.lt_of_lt_of_le ha hf.le)
        (hr.mono hf.le)
      exact hf.app harg
    | inst t type =>
      simp only [size] at hn
      have hterm := ih (t := t) (by omega) hc ht.1 ha hr
      have htype := Ty.subst_spec (ht.2.mono hterm.le) (Int.lt_of_lt_of_le ha hterm.le)
        (hr.mono hterm.le)
      rw [nameless, NamelessTerm.subst, ← htype.nameless_eq]
      exact hterm.inst htype.le htype.below
    | lam x type body =>
      simp only [size] at hn
      have htype := Ty.subst_spec ht.2.1 ha hr
      have hbody := ih (t := body) (by omega) hc (ht.2.2.mono htype.le)
        (Int.lt_of_lt_of_le ha htype.le) (hr.mono htype.le)
      rw [nameless, NamelessTerm.subst, ← htype.nameless_eq, NamelessTerm.Subst.lift_var,
        NamelessTerm.abstract_substTy]
      exact .lam htype.le (Int.lt_of_lt_of_le ht.1 htype.le) htype.below hbody
    | tyLam b kind body =>
      simp only [size] at hn
      have hb : b.unique < m := ht.1
      unfold substTypeWithin
      split_ifs with hba hcap
      · rw [hba, nameless, NamelessTerm.subst, NamelessTerm.Subst.liftTy_var,
          NamelessTerm.abstractTy_substTy_single_self]
        exact .unchanged (hba ▸ ht)
      · have hrenamed : StandsFor (m + 1) _ (substTypeWithin n [NameSort.make b.text m] b
            (.var (NameSort.make b.text m)) body (m + 1)) :=
          ih (by omega) (by simp [Ty.free]) (ht.2.mono (by omega)) (by omega)
            (show m < m + 1 by omega)
        have hsize := size_substTypeWithin n [NameSort.make b.text m] b
          (.var (NameSort.make b.text m)) body (m + 1)
        have hle := hrenamed.le
        exact .substTy_tyLam_renamed ht ha hr hrenamed
          (ih (by omega) hc hrenamed.below (by omega) (hr.mono (by omega)))
      · have hbr : ¬ replacement.nameless.Occurs (.free b) :=
          fun h => hcap (hc b (Ty.mem_free.mpr h))
        exact .substTy_tyLam hba hbr ht (ih (by omega) hc ht.2 ha hr)

/-- Substitution of a type in a named term is substitution in its nameless form. -/
theorem substType_spec {t : Term} {a : TyName} {replacement : Ty} {m : Int} (ht : t.Below m)
    (ha : a.unique < m) (hr : replacement.Below m) :
    StandsFor m (t.nameless.subst (.single a replacement.nameless) .var)
      (t.substType a replacement m) :=
  substTypeWithin_spec (Nat.le_refl _) (fun _ h => h) ht ha hr

/-! ## Terms in terms -/

/-- Renaming a binder does not change the size. -/
theorem size_substWithin_var (n : Nat) (captured : List Name) (capturedTypes : List TyName)
    (x z : Name) (t : Term) (k : Int) :
    (substWithin n captured capturedTypes x (.var z) t k).1.size = t.size := by
  induction n generalizing captured capturedTypes x z t k with
  | zero => rfl
  | succ n ih =>
    cases t with
    | var y =>
      unfold substWithin
      split_ifs <;> rfl
    | const | error => rfl
    | app | inst => simp [substWithin, size, ih]
    | lam y type body =>
      unfold substWithin
      split_ifs <;> simp [size, ih]
    | tyLam b kind body =>
      unfold substWithin
      split_ifs <;> simp [size, ih, substType, size_substTypeWithin]

theorem substWithin_spec {n : Nat} {captured : List Name} {capturedTypes : List TyName}
    {x : Name} {replacement t : Term} {m : Int} (hn : t.size ≤ n)
    (hc : ∀ y ∈ replacement.free, y ∈ captured)
    (hcTypes : ∀ a ∈ replacement.freeTypes, a ∈ capturedTypes) (ht : t.Below m)
    (hx : x.unique < m) (hr : replacement.Below m) :
    StandsFor m (t.nameless.subst .var (.single x replacement.nameless))
      (substWithin n captured capturedTypes x replacement t m) := by
  induction n generalizing captured capturedTypes x replacement t m with
  | zero => cases t <;> simp [size] at hn
  | succ n ih =>
    cases t with
    | const l => exact .unchanged ht
    | error type =>
      rw [nameless, NamelessTerm.subst, NamelessTy.subst_var]
      exact .unchanged ht
    | var y =>
      unfold substWithin
      by_cases hyx : y = x
      · simp only [hyx, if_true, nameless, NamelessTerm.subst, NamelessTerm.Subst.single]
        exact .unchanged hr
      · simp only [hyx, if_false, nameless, NamelessTerm.subst, NamelessTerm.Subst.single,
          Ref.free.injEq]
        exact .unchanged ht
    | app f t =>
      simp only [size] at hn
      have hf := ih (t := f) (by omega) hc hcTypes ht.1 hx hr
      have harg := ih (t := t) (by omega) hc hcTypes (ht.2.mono hf.le)
        (Int.lt_of_lt_of_le hx hf.le) (hr.mono hf.le)
      exact hf.app harg
    | inst t type =>
      simp only [size] at hn
      have hterm := ih (t := t) (by omega) hc hcTypes ht.1 hx hr
      rw [nameless, NamelessTerm.subst, NamelessTy.subst_var]
      exact hterm.inst (Int.le_refl _) (ht.2.mono hterm.le)
    | lam y type body =>
      simp only [size] at hn
      have hy : y.unique < m := ht.1
      unfold substWithin
      split_ifs with hyx hcap
      · rw [hyx, nameless, NamelessTerm.subst, NamelessTy.subst_var,
          NamelessTerm.abstract_subst_single_self]
        exact .unchanged (hyx ▸ ht)
      · have hrenamed : StandsFor (m + 1) _ (substWithin n [NameSort.make y.text m] [] y
            (.var (NameSort.make y.text m)) body (m + 1)) :=
          ih (by omega) (by simp [free]) (by simp [freeTypes]) (ht.2.2.mono (by omega)) (by omega)
            (show m < m + 1 by omega)
        have hsize := size_substWithin_var n [NameSort.make y.text m] [] y
          (NameSort.make y.text m) body (m + 1)
        have hle := hrenamed.le
        exact .subst_lam_renamed ht hx hr hrenamed
          (ih (by omega) hc hcTypes hrenamed.below (by omega) (hr.mono (by omega)))
      · have hyr : ¬ replacement.nameless.Occurs (.free y) :=
          fun h => hcap (hc y (mem_free.mpr h))
        exact .subst_lam hyx hyr ht (ih (by omega) hc hcTypes ht.2.2 hx hr)
    | tyLam b kind body =>
      simp only [size] at hn
      have hb : b.unique < m := ht.1
      unfold substWithin
      split_ifs with hcap
      · have hrenamed : StandsFor (m + 1) _ (body.substType b (.var (NameSort.make b.text m)) _) :=
          substType_spec (ht.2.mono (by omega)) (by omega) (show m < m + 1 by omega)
        have hsize : (body.substType b (.var (NameSort.make b.text m)) (m + 1)).1.size =
            body.size := size_substTypeWithin _ _ _ _ _ _
        have hle := hrenamed.le
        exact .subst_tyLam_renamed ht hr hrenamed
          (ih (by omega) hc hcTypes hrenamed.below (by omega) (hr.mono (by omega)))
      · have hbr : ¬ replacement.nameless.OccursTy (.free b) :=
          fun h => hcap (hcTypes b (mem_freeTypes.mpr h))
        exact .subst_tyLam hbr ht (ih (by omega) hc hcTypes ht.2 hx hr)

/-- Substitution of a term in a named term is substitution in its nameless form. -/
theorem subst_spec {t replacement : Term} {x : Name} {m : Int} (ht : t.Below m)
    (hx : x.unique < m) (hr : replacement.Below m) :
    StandsFor m (t.nameless.subst .var (.single x replacement.nameless))
      (t.subst x replacement m) :=
  substWithin_spec (Nat.le_refl _) (fun _ h => h) (fun _ h => h) ht hx hr

end FomegaLab.Term
