-- Every type with a kind stops reducing, wherever it is reduced. Termination is
-- not by size: contracting a redex may copy its argument. So each kind gets a set
-- of reducible types, and every type with a kind is reducible at it.
import FomegaLab.Proofs.Nameless.Kinding

namespace FomegaLab.NamelessTy

/-- There is no endless sequence of steps from a type. -/
def Terminates (t : NamelessTy) : Prop := Acc (fun s s' => Step s' s) t

theorem Terminates.intro {t : NamelessTy} (h : ∀ t', Step t t' → Terminates t') : Terminates t :=
  Acc.intro t h

theorem Terminates.step {t t' : NamelessTy} (h : Terminates t) (hs : Step t t') :
    Terminates t' := h.inv hs

/-- If steps of `t` are steps of `f t`, then `t` has no more of them. -/
theorem Terminates.of_map {f : NamelessTy → NamelessTy}
    (hf : ∀ {s s'}, Step s s' → Step (f s) (f s')) {t : NamelessTy} (h : Terminates (f t)) :
    Terminates t := by
  generalize hu : f t = u at h
  induction h generalizing t with
  | intro u _ ih =>
    refine .intro fun t' ht => ih (f t') ?_ rfl
    rw [← hu]
    exact hf ht

theorem terminates_arrow {s t : NamelessTy} (hs : Terminates s) (ht : Terminates t) :
    Terminates (arrow s t) := by
  induction hs generalizing t with
  | intro s hs ihs =>
    induction ht with
    | intro t ht iht =>
      refine .intro ?_
      intro u hu
      cases hu with
      | arrowArgument _ h => exact ihs _ h (Acc.intro t ht)
      | arrowResult _ h => exact iht _ h

theorem terminates_all {k : Kind} {t : NamelessTy} (h : Terminates t) : Terminates (all k t) := by
  induction h with
  | intro t _ ih =>
    refine .intro ?_
    intro u hu
    cases hu with
    | all _ h => exact ih _ h

/-! ## Reducible types -/

/-- A type operator is reducible if it takes reducible types to reducible types. -/
def Reducible : Kind → NamelessTy → Prop
  | .star, t => Terminates t
  | .arrow j k, t => ∀ u, Reducible j u → Reducible k (app t u)

/-- What the argument needs to know about the reducible types of one kind. -/
structure Candidate (P : NamelessTy → Prop) : Prop where
  terminates : ∀ {t}, P t → Terminates t
  step : ∀ {t t'}, P t → Step t t' → P t'
  neutral : ∀ {t}, t.isLam = false → (∀ t', Step t t' → P t') → P t

theorem Candidate.var {P : NamelessTy → Prop} (h : Candidate P) (r : Ref TyName) : P (var r) :=
  h.neutral rfl fun _ hs => by cases hs

/-- An application whose function is no lambda is reducible if all steps of the
function are, and the argument is. -/
theorem Candidate.app {P Q : NamelessTy → Prop} (hP : Candidate P) (hQ : Candidate Q)
    {f u : NamelessTy} (hf : f.isLam = false)
    (h : ∀ f', Step f f' → ∀ u, Q u → P (app f' u)) (hu : Q u) : P (app f u) := by
  have hterm := hQ.terminates hu
  induction hterm with
  | intro u _ ih =>
    apply hP.neutral rfl
    intro v hv
    cases hv with
    | beta => cases hf
    | appFunction _ hs => exact h _ hs _ hu
    | appArgument _ hs => exact ih _ hs (hQ.step hu hs)

theorem candidate (k : Kind) : Candidate (Reducible k) := by
  induction k with
  | star => exact ⟨id, Terminates.step, fun _ => Terminates.intro⟩
  | arrow j k ihj ihk =>
    refine ⟨fun {t} h => ?_, fun h hs u hu => ?_, fun hl h u hu => ?_⟩
    · have hvar := ihk.terminates (h _ (ihj.var (.bound 0)))
      exact Terminates.of_map (f := (app · _)) (Step.appFunction _) hvar
    · exact ihk.step (h u hu) (.appFunction u hs)
    · exact ihk.app ihj hl h hu

/-- A lambda is reducible if its instances are. -/
theorem reducible_lam {i j k : Kind} {t : NamelessTy}
    (h : ∀ u, Reducible j u → Reducible k (t.inst u)) : Reducible (.arrow j k) (lam i t) := by
  intro u hu
  have ht : Terminates t := by
    have hvar := (candidate k).terminates (h _ ((candidate j).var (.bound 0)))
    exact Terminates.of_map (f := (inst · _)) (fun hs => hs.subst _) hvar
  have hterm := (candidate j).terminates hu
  induction ht generalizing u with
  | intro t _ iht =>
    induction hterm with
    | intro u hacc ihu =>
      apply (candidate k).neutral rfl
      intro v hv
      cases hv with
      | beta => exact h u hu
      | appFunction _ hs =>
        cases hs with
        | lam _ hs =>
          exact iht _ hs (fun w hw => (candidate k).step (h w hw) (hs.subst _)) u hu
            (Acc.intro u hacc)
      | appArgument _ hs => exact ihu _ hs ((candidate j).step hu hs)

/-! ## Every type with a kind is reducible -/

theorem reducible_cons {σ : Subst} {Γ : KindScope} {k : Kind} {u : NamelessTy}
    (hσ : ∀ r j, Γ r = some j → Reducible j (σ r)) (hu : Reducible k u) :
    ∀ r j, Γ.push k r = some j → Reducible j (Ref.cons u σ r : NamelessTy) := by
  intro r j hr
  cases r using Ref.succCases with
  | zero =>
    cases hr
    exact hu
  | succ r =>
    rw [Ref.cons_succ]
    exact hσ r j (by simpa using hr)

theorem reducible_subst {t : NamelessTy} {Γ : KindScope} {k : Kind} (h : t.kind? Γ = some k)
    {σ : Subst} (hσ : ∀ r j, Γ r = some j → Reducible j (σ r)) : Reducible k (t.subst σ) := by
  induction t generalizing Γ k σ with
  | var r => exact hσ r k h
  | builtin b =>
    cases h
    exact .intro fun _ hs => by cases hs
  | arrow s t ihs iht =>
    obtain ⟨hs, ht, rfl⟩ := kind?_arrow.mp h
    exact terminates_arrow (ihs hs hσ) (iht ht hσ)
  | app f t ihf iht =>
    obtain ⟨j, hf, ht⟩ := kind?_app.mp h
    exact ihf hf hσ _ (iht ht hσ)
  | lam j t ih =>
    obtain ⟨result, ht, rfl⟩ := kind?_lam.mp h
    apply reducible_lam
    intro u hu
    rw [subst_lift_inst]
    exact ih ht (reducible_cons hσ hu)
  | all j t ih =>
    obtain ⟨ht, rfl⟩ := kind?_all.mp h
    -- the body terminates because its instance at a variable does
    have hvar := ih ht (reducible_cons hσ ((candidate j).var (.bound 0)))
    rw [← subst_lift_inst] at hvar
    exact terminates_all (Terminates.of_map (f := (inst · _)) (fun hs => hs.subst _) hvar)

theorem terminates_of_kind {t : NamelessTy} {Γ : KindScope} {k : Kind} (h : t.kind? Γ = some k) :
    Terminates t := by
  have hred := reducible_subst h (σ := var) fun r j _ => (candidate j).var r
  rw [subst_var] at hred
  exact (candidate k).terminates hred

/-! ## Normalization, parts first -/

/-- Normalizing the parts of a type before its redexes, with contractions nested at
most `d` deep. -/
inductive Evals : Nat → NamelessTy → NamelessTy → Prop
  | var (d : Nat) (r : Ref TyName) : Evals d (var r) (var r)
  | builtin (d : Nat) (b : Builtin) : Evals d (builtin b) (builtin b)
  | arrow {d : Nat} {s s' t t' : NamelessTy} (hs : Evals d s s') (ht : Evals d t t') :
      Evals d (arrow s t) (arrow s' t')
  | all {d : Nat} (k : Kind) {t t' : NamelessTy} (h : Evals d t t') : Evals d (all k t) (all k t')
  | lam {d : Nat} (k : Kind) {t t' : NamelessTy} (h : Evals d t t') : Evals d (lam k t) (lam k t')
  | app {d : Nat} {f f' t t' : NamelessTy} (hf : Evals d f f') (ht : Evals d t t')
      (hl : f'.isLam = false) : Evals d (app f t) (app f' t')
  | beta {d : Nat} {k : Kind} {f s t t' n : NamelessTy} (hf : Evals (d + 1) f (.lam k s))
      (ht : Evals (d + 1) t t') (h : Evals d (s.inst t') n) : Evals (d + 1) (app f t) n

namespace Evals

theorem mono {d e : Nat} {t n : NamelessTy} (h : Evals d t n) (hde : d ≤ e) : Evals e t n := by
  induction h generalizing e with
  | var d r => exact var e r
  | builtin d b => exact builtin e b
  | arrow _ _ ihs iht => exact arrow (ihs hde) (iht hde)
  | all k _ ih => exact all k (ih hde)
  | lam k _ ih => exact lam k (ih hde)
  | app _ _ hl ihf iht => exact app (ihf hde) (iht hde) hl
  | beta _ _ _ ihf iht ih =>
    cases e with
    | zero => omega
    | succ e => exact beta (ihf hde) (iht hde) (ih (by omega))

theorem rename {d : Nat} {t n : NamelessTy} (h : Evals d t n) (ρ : Ref TyName → Ref TyName) :
    Evals d (t.rename ρ) (n.rename ρ) := by
  induction h generalizing ρ with
  | var d r => exact var d (ρ r)
  | builtin d b => exact builtin d b
  | arrow _ _ ihs iht => exact arrow (ihs ρ) (iht ρ)
  | all k _ ih => exact all k (ih _)
  | lam k _ ih => exact lam k (ih _)
  | app _ _ hl ihf iht => exact app (ihf ρ) (iht ρ) (by rw [isLam_rename, hl])
  | beta _ _ _ ihf iht ih =>
    have hinst := ih ρ
    rw [inst_rename] at hinst
    exact beta (ihf ρ) (iht ρ) hinst

theorem normalForm {d : Nat} {t n : NamelessTy} (h : Evals d t n) : NormalForm t n := by
  induction h with
  | var | builtin => exact ⟨.refl, trivial⟩
  | arrow _ _ ihs iht => exact ihs.arrow iht
  | all k _ ih => exact ih.all k
  | lam k _ ih => exact ih.lam k
  | app _ _ hl ihf iht => exact ihf.app iht hl
  | beta _ _ _ ihf iht ih =>
    exact .of_steps ((ihf.steps.app iht.steps).tail (.beta _ _ _)) ih

end Evals

/-- Normalization of a part that the map `C` puts into a terminating type. The recursion
is on the steps of that type and, between steps, on the part. -/
theorem exists_evals_of_acc {u : NamelessTy}
    (h : Acc (Relation.TransGen fun s s' => Step s' s) u) {C : NamelessTy → NamelessTy}
    (hC : ∀ {s s'}, Step s s' → Step (C s) (C s')) {t : NamelessTy} (ht : C t = u) :
    ∃ d n, Evals d t n := by
  induction h generalizing C t with
  | intro u _ ih =>
    induction t generalizing C with
    | var r => exact ⟨0, _, .var 0 r⟩
    | builtin b => exact ⟨0, _, .builtin 0 b⟩
    | arrow s t ihs iht =>
      obtain ⟨d, s', hs⟩ := ihs (C := fun s => C (arrow s t)) (fun h => hC (.arrowArgument t h)) ht
      obtain ⟨e, t', ht⟩ := iht (C := fun t => C (arrow s t)) (fun h => hC (.arrowResult s h)) ht
      exact ⟨max d e, _, .arrow (hs.mono (by omega)) (ht.mono (by omega))⟩
    | all k t iht =>
      obtain ⟨d, t', ht⟩ := iht (C := fun t => C (all k t)) (fun h => hC (.all k h)) ht
      exact ⟨d, _, ht.all k⟩
    | lam k t iht =>
      obtain ⟨d, t', ht⟩ := iht (C := fun t => C (lam k t)) (fun h => hC (.lam k h)) ht
      exact ⟨d, _, ht.lam k⟩
    | app f t ihf iht =>
      obtain ⟨d, f', hf⟩ := ihf (C := fun f => C (app f t)) (fun h => hC (.appFunction t h)) ht
      obtain ⟨e, t', ht'⟩ := iht (C := fun t => C (app f t)) (fun h => hC (.appArgument f h)) ht
      cases hl : f'.isLam with
      | false => exact ⟨max d e, _, .app (hf.mono (by omega)) (ht'.mono (by omega)) hl⟩
      | true =>
        cases f' with
        | lam k s =>
          have hsteps := (hf.normalForm.steps.app ht'.normalForm.steps).map C hC
          have hredex := Relation.TransGen.tail' hsteps (hC (.beta k s t'))
          rw [ht] at hredex
          obtain ⟨i, n, hn⟩ := ih (C (s.inst t')) (Relation.transGen_swap.mpr hredex) hC rfl
          exact ⟨max (max d e) i + 1, n,
            .beta (hf.mono (by omega)) (ht'.mono (by omega)) (hn.mono (by omega))⟩
        | _ => cases hl

/-- Normalization finds the normal form of every type with a kind. -/
theorem exists_evals {t : NamelessTy} {Γ : KindScope} {k : Kind} (h : t.kind? Γ = some k) :
    ∃ d n, Evals d t n :=
  exists_evals_of_acc (terminates_of_kind h).transGen (C := id) id rfl

theorem exists_normalForm {t : NamelessTy} {Γ : KindScope} {k : Kind} (h : t.kind? Γ = some k) :
    ∃ n, NormalForm t n := by
  obtain ⟨_, n, hn⟩ := exists_evals h
  exact ⟨n, hn.normalForm⟩

end FomegaLab.NamelessTy
