-- What a positional type means at a kind: a nameless type in which every reference
-- is bound and every lambda carries the kind that it takes. A type has a meaning at
-- a kind exactly if it has that kind. Shifting is renaming, instantiating is
-- substituting, and normalizing finds the meaning of the normal form.
import FomegaLab.Positional.Member
import FomegaLab.Proofs.Nameless.Termination
import Mathlib.Logic.Function.Iterate

namespace FomegaLab

open NamelessTy (NormalForm Evals)

/-! ## References under several binders -/

namespace Ref

variable {ν : Type}

theorem succ_iterate_bound (q i : Nat) : succ^[q] (bound i : Ref ν) = bound (i + q) := by
  induction q with
  | zero => rfl
  | succ q ih => rw [Function.iterate_succ_apply', ih]; rfl

theorem lift_iterate_of_lt (ρ : Ref ν → Ref ν) {p i : Nat} (h : i < p) :
    lift^[p] ρ (bound i) = bound i := by
  induction p generalizing i with
  | zero => omega
  | succ p ih =>
    rw [Function.iterate_succ_apply']
    cases i with
    | zero => rfl
    | succ i =>
      have hi := lift_succ (lift^[p] ρ) (bound i)
      rw [ih (by omega)] at hi
      exact hi

theorem lift_iterate_add (ρ : Ref ν → Ref ν) (p i : Nat) :
    lift^[p] ρ (bound (i + p)) = succ^[p] (ρ (bound i)) := by
  induction p with
  | zero => rfl
  | succ p ih =>
    have hi := lift_succ (lift^[p] ρ) (bound (i + p))
    rw [ih] at hi
    rw [Function.iterate_succ_apply', Function.iterate_succ_apply']
    exact hi

end Ref

namespace NamelessTy.Subst

theorem lift_iterate_of_lt (σ : Subst) {p i : Nat} (h : i < p) :
    lift^[p] σ (.bound i) = .var (.bound i) := by
  induction p generalizing i with
  | zero => omega
  | succ p ih =>
    rw [Function.iterate_succ_apply']
    cases i with
    | zero => rfl
    | succ i =>
      have hi := lift_succ (lift^[p] σ) (.bound i)
      rw [ih (by omega)] at hi
      exact hi

theorem lift_iterate_add (σ : Subst) (p i : Nat) :
    lift^[p] σ (.bound (i + p)) = (σ (.bound i)).rename Ref.succ^[p] := by
  induction p with
  | zero => exact (rename_id _).symm
  | succ p ih =>
    have hi := lift_succ (lift^[p] σ) (.bound (i + p))
    rw [ih, rename_rename] at hi
    rw [Function.iterate_succ_apply', Function.iterate_succ']
    exact hi

end NamelessTy.Subst

/-! ## Meanings -/

/-- `Denotes D k t u`: in the scope `D`, the positional type `t` has the kind `k`, and
at this kind it means `u`. -/
inductive Denotes : List Kind → Kind → PosTy → NamelessTy → Prop
  | var {D : List Kind} {k : Kind} {i : Int} {n : Nat} (hi : i = n) (h : D[n]? = some k) :
      Denotes D k (.var i) (.var (.bound n))
  | arrow {D : List Kind} {s t : PosTy} {S T : NamelessTy} (hs : Denotes D .star s S)
      (ht : Denotes D .star t T) : Denotes D .star (.arrow s t) (.arrow S T)
  | all {D : List Kind} {j : Kind} {t : PosTy} {T : NamelessTy}
      (h : Denotes (j :: D) .star t T) : Denotes D .star (.all j t) (.all j T)
  | builtin {D : List Kind} (b : Builtin) : Denotes D .star (.builtin b) (.builtin b)
  | lam {D : List Kind} {j k : Kind} {t : PosTy} {T : NamelessTy}
      (h : Denotes (j :: D) k t T) : Denotes D (.arrow j k) (.lam t) (.lam j T)
  | app {D : List Kind} {j k : Kind} {f t : PosTy} {F T : NamelessTy}
      (hf : Denotes D (.arrow j k) f F) (ht : Denotes D j t T) :
      Denotes D k (.app f t j) (.app F T)

/-- The kinds of the binders in scope; no name has a kind. -/
def KindScope.ofList (D : List Kind) : KindScope
  | .free _ => none
  | .bound i => D[i]?

/-- The references with a kind are the binders in scope. -/
theorem KindScope.ofList_eq_some {D : List Kind} {r : Ref TyName} {k : Kind}
    (h : ofList D r = some k) : ∃ i < D.length, r = .bound i := by
  cases r with
  | free a => cases h
  | bound i => exact ⟨i, (List.getElem?_eq_some_iff.mp h).1, rfl⟩

theorem KindScope.push_ofList (k : Kind) (D : List Kind) :
    push k (ofList D) = ofList (k :: D) := by
  funext r
  cases r using Ref.succCases with
  | zero => rfl
  | succ r =>
    rw [push_succ]
    cases r <;> rfl

namespace Denotes

variable {D : List Kind} {k : Kind} {t : PosTy} {u : NamelessTy}

theorem exists_of_hasKind (h : t.hasKind D k = true) : ∃ u, Denotes D k t u := by
  induction t generalizing D k with
  | var i =>
    simp only [PosTy.hasKind, beq_iff_eq, Scope.find?_eq_some_iff] at h
    exact ⟨_, .var (Int.toNat_of_nonneg h.1).symm h.2⟩
  | arrow s t ihs iht =>
    simp only [PosTy.hasKind, Bool.and_eq_true, beq_iff_eq] at h
    obtain ⟨⟨rfl, hs⟩, ht⟩ := h
    obtain ⟨S, hS⟩ := ihs hs
    obtain ⟨T, hT⟩ := iht ht
    exact ⟨_, hS.arrow hT⟩
  | all j t ih =>
    simp only [PosTy.hasKind, Bool.and_eq_true, beq_iff_eq] at h
    obtain ⟨rfl, ht⟩ := h
    obtain ⟨T, hT⟩ := ih ht
    exact ⟨_, hT.all⟩
  | builtin b =>
    simp only [PosTy.hasKind, beq_iff_eq] at h
    rw [h]
    exact ⟨_, .builtin b⟩
  | lam t ih =>
    cases k with
    | star => cases h
    | arrow j k =>
      obtain ⟨T, hT⟩ := ih h
      exact ⟨_, hT.lam⟩
  | app f t j ihf iht =>
    simp only [PosTy.hasKind, Bool.and_eq_true] at h
    obtain ⟨F, hF⟩ := ihf h.1
    obtain ⟨T, hT⟩ := iht h.2
    exact ⟨_, hF.app hT⟩

/-- Only a type with the kind has a meaning at it. -/
theorem hasKind (h : Denotes D k t u) : t.hasKind D k = true := by
  induction h with
  | var hi h =>
    rw [PosTy.hasKind, beq_iff_eq, Scope.find?_eq_some_iff, hi, Int.toNat_natCast]
    exact ⟨Int.natCast_nonneg _, h⟩
  | arrow _ _ ihs iht =>
    rw [PosTy.hasKind, ihs, iht, beq_self_eq_true, Bool.and_self, Bool.and_self]
  | all _ ih => rw [PosTy.hasKind, ih, beq_self_eq_true, Bool.and_self]
  | builtin b => rfl
  | lam _ ih => exact ih
  | app _ _ ihf iht => rw [PosTy.hasKind, ihf, iht, Bool.and_self]

/-- A type means one thing at a kind. -/
theorem unique {u' : NamelessTy} (h : Denotes D k t u) (h' : Denotes D k t u') : u = u' := by
  induction h generalizing u' with
  | var hi _ =>
    cases h' with
    | var hi' _ => rw [Int.ofNat_inj.mp (hi.symm.trans hi')]
  | arrow _ _ ihs iht =>
    cases h' with
    | arrow hs ht => rw [ihs hs, iht ht]
  | all _ ih =>
    cases h' with
    | all h => rw [ih h]
  | builtin b =>
    cases h'
    rfl
  | lam _ ih =>
    cases h' with
    | lam h => rw [ih h]
  | app _ _ ihf iht =>
    cases h' with
    | app hf ht => rw [ihf hf, iht ht]

theorem kind?_eq (h : Denotes D k t u) : u.kind? (.ofList D) = some k := by
  induction h with
  | var _ h => exact h
  | arrow _ _ ihs iht => exact NamelessTy.kind?_arrow.mpr ⟨ihs, iht, rfl⟩
  | all _ ih =>
    rw [← KindScope.push_ofList] at ih
    exact NamelessTy.kind?_all.mpr ⟨ih, rfl⟩
  | builtin b => rfl
  | lam _ ih =>
    rw [← KindScope.push_ofList] at ih
    exact NamelessTy.kind?_lam.mpr ⟨_, ih, rfl⟩
  | app _ _ ihf iht => exact NamelessTy.kind?_app.mpr ⟨_, ihf, iht⟩

/-- A meaning refers to the binders in scope only. -/
theorem exists_of_occurs (h : Denotes D k t u) {r : Ref TyName} (hr : u.Occurs r) :
    ∃ i j, r = .bound i ∧ D[i]? = some j := by
  obtain ⟨j, hj⟩ := NamelessTy.kind?_of_occurs h.kind?_eq hr
  cases r with
  | free a => cases hj
  | bound i => exact ⟨i, j, rfl, hj⟩

/-! ## Shifting and instantiating -/

/-- Shifting over the binders `Q` is renaming, under the binders `P` that are kept. -/
theorem shift {P Q E : List Kind} {amount cutoff : Int} (h : Denotes D k t u)
    (hD : D = P ++ E) (ha : amount = Q.length) (hc : cutoff = P.length) :
    Denotes (P ++ (Q ++ E)) k (t.shift amount cutoff)
      (u.rename (Ref.lift^[P.length] Ref.succ^[Q.length])) := by
  induction h generalizing P cutoff with
  | @var D k i n hi h =>
    subst hD
    by_cases hn : n < P.length
    · rw [PosTy.shift, if_neg (by omega), NamelessTy.rename, Ref.lift_iterate_of_lt _ hn]
      rw [List.getElem?_append_left hn] at h
      exact .var hi (by rw [List.getElem?_append_left hn, h])
    · obtain ⟨m, rfl⟩ : ∃ m, n = m + P.length := ⟨n - P.length, by omega⟩
      rw [PosTy.shift, if_pos (by omega), NamelessTy.rename, Ref.lift_iterate_add,
        Ref.succ_iterate_bound, Ref.succ_iterate_bound]
      rw [List.getElem?_append_right (by omega)] at h
      refine .var (by omega) ?_
      rw [List.getElem?_append_right (by omega), List.getElem?_append_right (by omega), ← h]
      congr 1
      omega
  | arrow _ _ ihs iht => exact (ihs hD hc).arrow (iht hD hc)
  | builtin b => exact .builtin b
  | app _ _ ihf iht => exact (ihf hD hc).app (iht hD hc)
  | @all D j _ _ _ ih =>
    have hc' : cutoff + 1 = (j :: P).length := by rw [hc]; rfl
    have hbody := ih (P := j :: P) (by rw [hD]; rfl) hc'
    rw [List.length_cons, Function.iterate_succ_apply'] at hbody
    exact hbody.all
  | @lam D j _ _ _ _ ih =>
    have hc' : cutoff + 1 = (j :: P).length := by rw [hc]; rfl
    have hbody := ih (P := j :: P) (by rw [hD]; rfl) hc'
    rw [List.length_cons, Function.iterate_succ_apply'] at hbody
    exact hbody.lam

/-- Substituting for the binder below `P` is substituting for its references. -/
theorem substAt {P E : List Kind} {j : Kind} {s : PosTy} {v : NamelessTy} {depth : Int}
    (h : Denotes D k t u) (hs : Denotes E j s v) (hD : D = P ++ j :: E) (hd : depth = P.length) :
    Denotes (P ++ E) k (t.substAt depth s)
      (u.subst (NamelessTy.Subst.lift^[P.length] (Ref.cons v .var))) := by
  induction h generalizing P depth with
  | @var D k i n hi h =>
    subst hD
    rcases Nat.lt_trichotomy n P.length with hn | hn | hn
    · rw [PosTy.substAt, if_neg (by omega), if_neg (by omega), NamelessTy.subst,
        NamelessTy.Subst.lift_iterate_of_lt _ hn]
      rw [List.getElem?_append_left hn] at h
      exact .var hi (by rw [List.getElem?_append_left hn, h])
    · have hshift := hs.shift (P := []) (Q := P) rfl hd rfl
      have hsubst := NamelessTy.Subst.lift_iterate_add (Ref.cons v .var) P.length 0
      rw [Nat.zero_add] at hsubst
      rw [List.getElem?_append_right (by omega), hn, Nat.sub_self] at h
      cases h
      rw [PosTy.substAt, if_pos (by omega), NamelessTy.subst, hn, hsubst]
      exact hshift
    · obtain ⟨m, rfl⟩ : ∃ m, n = (m + 1) + P.length := ⟨n - P.length - 1, by omega⟩
      rw [PosTy.substAt, if_neg (by omega), if_pos (by omega), NamelessTy.subst,
        NamelessTy.Subst.lift_iterate_add]
      rw [List.getElem?_append_right (by omega), Nat.add_sub_cancel, List.getElem?_cons_succ] at h
      have hvar : (Ref.cons v NamelessTy.var (.bound (m + 1))).rename Ref.succ^[P.length] =
          .var (.bound (m + P.length)) :=
        congrArg NamelessTy.var (Ref.succ_iterate_bound _ _)
      rw [hvar]
      refine .var (by omega) ?_
      rw [List.getElem?_append_right (by omega), Nat.add_sub_cancel, h]
  | arrow _ _ ihs iht => exact (ihs hD hd).arrow (iht hD hd)
  | builtin b => exact .builtin b
  | app _ _ ihf iht => exact (ihf hD hd).app (iht hD hd)
  | @all D i _ _ _ ih =>
    have hd' : depth + 1 = (i :: P).length := by rw [hd]; rfl
    have hbody := ih (P := i :: P) (by rw [hD]; rfl) hd'
    rw [List.length_cons, Function.iterate_succ_apply'] at hbody
    exact hbody.all
  | @lam D i _ _ _ _ ih =>
    have hd' : depth + 1 = (i :: P).length := by rw [hd]; rfl
    have hbody := ih (P := i :: P) (by rw [hD]; rfl) hd'
    rw [List.length_cons, Function.iterate_succ_apply'] at hbody
    exact hbody.lam

theorem instantiate {j : Kind} {s : PosTy} {v : NamelessTy} (h : Denotes (j :: D) k t u)
    (hs : Denotes D j s v) : Denotes D k (t.instantiate s) (u.inst v) :=
  h.substAt (P := []) hs rfl rfl

/-- A type from outside of a binder means the same under it. -/
theorem shiftOne (h : Denotes D k t u) (j : Kind) :
    Denotes (j :: D) k (t.shift 1 0) (u.rename Ref.succ) :=
  h.shift (P := []) (Q := [j]) rfl rfl rfl

end Denotes

/-! ## Normalization -/

namespace PosTy

theorem normalizeWith_mono {contracted contracted' : PosTy → Option PosTy}
    (hc : ∀ {t t'}, contracted t = some t' → contracted' t = some t') {t t' : PosTy}
    (h : t.normalizeWith contracted = some t') : t.normalizeWith contracted' = some t' := by
  induction t generalizing t' with
  | var | builtin => exact h
  | arrow s t ihs iht =>
    simp only [normalizeWith, Option.bind_eq_bind, Option.bind_eq_some_iff] at h ⊢
    obtain ⟨s', hs, t'', ht, h⟩ := h
    exact ⟨s', ihs hs, t'', iht ht, h⟩
  | all k t ih | lam t ih =>
    simp only [normalizeWith, Option.bind_eq_bind, Option.bind_eq_some_iff] at h ⊢
    obtain ⟨t'', ht, h⟩ := h
    exact ⟨t'', ih ht, h⟩
  | app f t k ihf iht =>
    simp only [normalizeWith, Option.bind_eq_bind, Option.bind_eq_some_iff] at h ⊢
    obtain ⟨f', hf, t'', ht, h⟩ := h
    refine ⟨f', ihf hf, t'', iht ht, ?_⟩
    cases f' with
    | lam body => exact hc h
    | _ => exact h

/-- More fuel keeps a finished answer. -/
theorem normalize_mono {fuel fuel' : Nat} (hle : fuel ≤ fuel') {t t' : PosTy}
    (h : t.normalize fuel = some t') : t.normalize fuel' = some t' := by
  induction fuel generalizing fuel' t t' with
  | zero =>
    cases fuel' with
    | zero => exact h
    | succ fuel' => exact normalizeWith_mono (fun h => by cases h) h
  | succ fuel ih =>
    cases fuel' with
    | zero => omega
    | succ fuel' => exact normalizeWith_mono (ih (by omega)) h

/-- What a normalization leaves contracted redexes to. -/
def normalizeAfter : Nat → PosTy → Option PosTy
  | 0 => fun _ => none
  | fuel + 1 => normalize fuel

theorem normalize_eq (fuel : Nat) (t : PosTy) :
    t.normalize fuel = t.normalizeWith (normalizeAfter fuel) := by
  cases fuel <;> rfl

end PosTy

namespace Denotes

variable {D : List Kind} {k : Kind} {t : PosTy} {u : NamelessTy}

/-- Normalization follows an evaluation of the meaning. -/
theorem normalize_of_evals {d : Nat} {u' : NamelessTy} (h : Evals d u u') {fuel : Nat}
    (hd : d ≤ fuel) (ht : Denotes D k t u) :
    ∃ t', t.normalize fuel = some t' ∧ Denotes D k t' u' := by
  induction h generalizing fuel D k t with
  | var d r =>
    cases ht with
    | var hi h => exact ⟨_, by rw [PosTy.normalize_eq]; rfl, .var hi h⟩
  | builtin d b =>
    cases ht
    exact ⟨_, by rw [PosTy.normalize_eq]; rfl, .builtin b⟩
  | arrow _ _ ihs iht =>
    cases ht with
    | arrow hs ht =>
      obtain ⟨s', hs', hS⟩ := ihs hd hs
      obtain ⟨t', ht', hT⟩ := iht hd ht
      rw [PosTy.normalize_eq] at hs' ht'
      exact ⟨_, by rw [PosTy.normalize_eq, PosTy.normalizeWith, hs', ht']; rfl, hS.arrow hT⟩
  | all j _ ih =>
    cases ht with
    | all ht =>
      obtain ⟨t', ht', hT⟩ := ih hd ht
      rw [PosTy.normalize_eq] at ht'
      exact ⟨_, by rw [PosTy.normalize_eq, PosTy.normalizeWith, ht']; rfl, hT.all⟩
  | lam j _ ih =>
    cases ht with
    | lam ht =>
      obtain ⟨t', ht', hT⟩ := ih hd ht
      rw [PosTy.normalize_eq] at ht'
      exact ⟨_, by rw [PosTy.normalize_eq, PosTy.normalizeWith, ht']; rfl, hT.lam⟩
  | app _ _ hl ihf iht =>
    cases ht with
    | app hf ht =>
      obtain ⟨f', hf', hF⟩ := ihf hd hf
      obtain ⟨t', ht', hT⟩ := iht hd ht
      rw [PosTy.normalize_eq] at hf' ht'
      refine ⟨_, ?_, hF.app hT⟩
      rw [PosTy.normalize_eq, PosTy.normalizeWith, hf', ht']
      cases hF with
      | lam => cases hl
      | _ => rfl
  | beta _ _ _ ihf iht ih =>
    cases ht with
    | app hf ht =>
      cases fuel with
      | zero => omega
      | succ fuel =>
        obtain ⟨f', hf', hF⟩ := ihf hd hf
        obtain ⟨t', ht', hT⟩ := iht hd ht
        cases hF with
        | lam hbody =>
          obtain ⟨v, hv, hV⟩ := ih (Nat.le_of_succ_le_succ hd) (hbody.instantiate hT)
          rw [PosTy.normalize] at hf' ht' ⊢
          exact ⟨v, by rw [PosTy.normalizeWith, hf', ht']; exact hv, hV⟩

/-- A type with a meaning has a normal form, and enough fuel finds it. -/
theorem exists_normalize (h : Denotes D k t u) :
    ∃ d t' u', (∀ fuel ≥ d, t.normalize fuel = some t') ∧ Denotes D k t' u' ∧ NormalForm u u' := by
  obtain ⟨d, u', hd⟩ := NamelessTy.exists_evals h.kind?_eq
  obtain ⟨t', ht', hT⟩ := normalize_of_evals hd (Nat.le_refl d) h
  exact ⟨d, t', u', fun fuel hfuel => PosTy.normalize_mono hfuel ht', hT, hd.normalForm⟩

/-- Whatever normalization returns means the normal form. -/
theorem normalize {fuel : Nat} {t' : PosTy} (h : Denotes D k t u)
    (ht : t.normalize fuel = some t') : ∃ u', Denotes D k t' u' ∧ NormalForm u u' := by
  obtain ⟨d, t'', u', hd, hT, hn⟩ := h.exists_normalize
  have hmax := PosTy.normalize_mono (Nat.le_max_left fuel d) ht
  rw [hd _ (Nat.le_max_right fuel d)] at hmax
  cases hmax
  exact ⟨u', hT, hn⟩

theorem of_normalize {fuel : Nat} {t' : PosTy} {n : NamelessTy} (h : Denotes D k t u)
    (hn : NormalForm u n) (ht : t.normalize fuel = some t') : Denotes D k t' n := by
  obtain ⟨u', hu', hn'⟩ := h.normalize ht
  rw [hn.unique hn']
  exact hu'

end Denotes

end FomegaLab
