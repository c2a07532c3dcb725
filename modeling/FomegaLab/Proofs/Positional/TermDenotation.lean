-- What a positional term means at a normal type: a nameless term in which every
-- reference is bound and every lambda carries the type that it takes. A term has a
-- meaning if it has the type, and if the types that it carries are normal, it is read
-- off its meaning, and so is its type.
import FomegaLab.Proofs.Positional.Membership
import FomegaLab.Proofs.Typing.Nameless
import Mathlib.Data.List.Forall2

namespace FomegaLab

open NamelessTy (NormalForm)

/-! ## Scopes of bound references -/

/-- The types of the term binders in scope; no name has a type. -/
def TypeScope.ofList (G : List NamelessTy) : TypeScope
  | .free _ => none
  | .bound i => G[i]?

/-- The references with a type are the binders in scope. -/
theorem TypeScope.ofList_eq_some {G : List NamelessTy} {r : Ref Name} {T : NamelessTy}
    (h : ofList G r = some T) : ∃ i < G.length, r = .bound i := by
  cases r with
  | free x => cases h
  | bound i => exact ⟨i, (List.getElem?_eq_some_iff.mp h).1, rfl⟩

theorem TypeScope.cons_ofList (T : NamelessTy) (G : List NamelessTy) :
    Ref.cons (some T) (ofList G) = ofList (T :: G) := by
  funext r
  cases r using Ref.succCases with
  | zero => rfl
  | succ r =>
    rw [Ref.cons_succ]
    cases r <;> rfl

theorem TypeScope.pushTy_ofList (G : List NamelessTy) :
    (ofList G).pushTy = ofList (G.map (·.rename Ref.succ)) := by
  funext r
  cases r with
  | free x => rfl
  | bound i => exact (List.getElem?_map ..).symm

/-- The normal types that the types of the term binders in scope mean. -/
def NormalTypes (D : List Kind) (G : List PosTy) (G' : List NamelessTy) : Prop :=
  List.Forall₂ (fun τ U => ∃ u, Denotes D .star τ u ∧ NormalForm u U) G G'

namespace NormalTypes

variable {D : List Kind} {G : List PosTy} {G' : List NamelessTy}

theorem push (h : NormalTypes D G G') {τ : PosTy} {U : NamelessTy} (hτ : Denotes D .star τ U)
    (hU : U.Normal) : NormalTypes D (τ :: G) (U :: G') :=
  .cons ⟨U, hτ, hU.normalForm⟩ h

theorem pushTy (h : NormalTypes D G G') (k : Kind) :
    NormalTypes (k :: D) (G.map fun s => s.shift 1 0) (G'.map (·.rename Ref.succ)) := by
  rw [NormalTypes, List.forall₂_map_left_iff, List.forall₂_map_right_iff]
  exact h.imp fun τ U ⟨u, hu, hU⟩ => ⟨_, hu.shiftOne k, hU.rename _⟩

theorem getElem? (h : NormalTypes D G G') {i : Nat} {τ : PosTy} (hτ : G[i]? = some τ) :
    ∃ u U, Denotes D .star τ u ∧ NormalForm u U ∧ G'[i]? = some U := by
  obtain ⟨hi, rfl⟩ := List.getElem?_eq_some_iff.mp hτ
  have hi' : i < G'.length := h.length_eq ▸ hi
  obtain ⟨u, hu, hU⟩ := h.get hi hi'
  exact ⟨u, G'[i], hu, hU, List.getElem?_eq_getElem hi'⟩

end NormalTypes

/-- A type without a step is read off its normal form. -/
theorem Denotes.injective_of_normalForm {D : List Kind} {k : Kind} {s s' : PosTy}
    {u u' S : NamelessTy} (h : Denotes D k s u) (h' : Denotes D k s' u') (hS : NormalForm u S)
    (hS' : NormalForm u' S) (hn : s.step = none) (hn' : s'.step = none) : s = s' := by
  cases (h.normal_of_step_eq_none hn).eq_of_steps hS.steps
  cases (h'.normal_of_step_eq_none hn').eq_of_steps hS'.steps
  exact h.injective h'

/-! ## Meanings -/

/-- `DenotesTerm D G T t M`: in the scopes `D` and `G`, the positional term `t` has the
normal type `T`, and at this type it means `M`. -/
inductive DenotesTerm : List Kind → List NamelessTy → NamelessTy → PosTerm → NamelessTerm → Prop
  | var {D : List Kind} {G : List NamelessTy} {T : NamelessTy} {i : Int} {n : Nat} (hi : i = n)
      (h : G[n]? = some T) : DenotesTerm D G T (.var i) (.var (.bound n))
  | lam {D : List Kind} {G : List NamelessTy} {S T : NamelessTy} {t : PosTerm} {M : NamelessTerm}
      (hk : S.kind? (.ofList D) = some .star) (hS : S.Normal) (h : DenotesTerm D (S :: G) T t M) :
      DenotesTerm D G (.arrow S T) (.lam t) (.lam S M)
  | app {D : List Kind} {G : List NamelessTy} {s : PosTy} {u S T : NamelessTy} {f t : PosTerm}
      {F M : NamelessTerm} (hs : Denotes D .star s u) (hS : NormalForm u S)
      (hf : DenotesTerm D G (.arrow S T) f F) (ht : DenotesTerm D G S t M) :
      DenotesTerm D G T (.app f t s) (.app F M)
  | tyLam {D : List Kind} {G : List NamelessTy} {k : Kind} {T : NamelessTy} {t : PosTerm}
      {M : NamelessTerm} (h : DenotesTerm (k :: D) (G.map (·.rename Ref.succ)) T t M) :
      DenotesTerm D G (.all k T) (.tyLam t) (.tyLam k M)
  | inst {D : List Kind} {G : List NamelessTy} {k : Kind} {b s : PosTy} {u B v T : NamelessTy}
      {t : PosTerm} {M : NamelessTerm} (hb : Denotes (k :: D) .star b u) (hB : NormalForm u B)
      (hs : Denotes D k s v) (hT : NormalForm (B.inst v) T)
      (ht : DenotesTerm D G (.all k B) t M) : DenotesTerm D G T (.inst t b s k) (.inst M v)
  | const {D : List Kind} {G : List NamelessTy} (l : Literal) :
      DenotesTerm D G (.builtin l.builtin) (.const l) (.const l)
  | error {D : List Kind} {G : List NamelessTy} {T : NamelessTy}
      (hk : T.kind? (.ofList D) = some .star) (hT : T.Normal) : DenotesTerm D G T .error (.error T)

namespace DenotesTerm

/-- A term that has a type means something at its normal form. -/
theorem exists_of_hasType {fuel : Nat} {D : List Kind} {G : List PosTy} {τ : PosTy} {t : PosTerm}
    (ht : t.hasType fuel D G τ = true) {u U : NamelessTy} (hu : Denotes D .star τ u)
    (hU : NormalForm u U) {G' : List NamelessTy} (hG : NormalTypes D G G') :
    ∃ M, DenotesTerm D G' U t M := by
  induction t generalizing D G τ u U G' with
  | var i =>
    obtain ⟨τ', bound, hτ, hbound, hn⟩ := PosTerm.hasType_var.mp ht
    obtain ⟨hi, hi'⟩ := Scope.find?_eq_some_iff.mp hbound
    obtain ⟨v, V, hv, hV, hG'⟩ := hG.getElem? hi'
    cases (hv.of_normalize hV hn).unique (hu.of_normalize hU hτ)
    exact ⟨_, .var (Int.toNat_of_nonneg hi).symm hG'⟩
  | lam body ih =>
    obtain ⟨s, r, hτ, hbody⟩ := PosTerm.hasType_lam.mp ht
    have hnormal := hU.normal
    cases hu.of_normalize hU hτ with
    | arrow hS hR =>
      obtain ⟨M, hM⟩ := ih hbody hR hnormal.2.normalForm (hG.push hS hnormal.1)
      exact ⟨_, .lam hS.kind?_eq hnormal.1 hM⟩
  | app f t s ihf iht =>
    obtain ⟨τ', hτ, hk, hf, ht⟩ := PosTerm.hasType_app.mp ht
    obtain ⟨v, hv⟩ := Denotes.exists_of_hasKind hk
    obtain ⟨V, hV⟩ := NamelessTy.exists_normalForm hv.kind?_eq
    obtain ⟨F, hF⟩ := ihf hf (hv.arrow (hu.of_normalize hU hτ)) (hV.arrow hU.normal.normalForm) hG
    obtain ⟨M, hM⟩ := iht ht hv hV hG
    exact ⟨_, .app hv hV hF hM⟩
  | tyLam body ih =>
    obtain ⟨k, b, hτ, hbody⟩ := PosTerm.hasType_tyLam.mp ht
    have hnormal := hU.normal
    cases hu.of_normalize hU hτ with
    | all hB =>
      obtain ⟨M, hM⟩ := ih hbody hB (NamelessTy.Normal.normalForm hnormal) (hG.pushTy k)
      exact ⟨_, .tyLam hM⟩
  | inst t b s k ih =>
    obtain ⟨τ', hτ, hkb, hks, hn, ht⟩ := PosTerm.hasType_inst.mp ht
    obtain ⟨b', hb'⟩ := Denotes.exists_of_hasKind hkb
    obtain ⟨v, hv⟩ := Denotes.exists_of_hasKind hks
    obtain ⟨B, hB⟩ := NamelessTy.exists_normalForm hb'.kind?_eq
    obtain ⟨M, hM⟩ := ih ht hb'.all (hB.all k) hG
    obtain ⟨U', hU', hinst⟩ := (hb'.instantiate hv).normalize hn
    cases hU'.unique (hu.of_normalize hU hτ)
    exact ⟨_, .inst hb' hB hv (hinst.after_steps (.inst hB.steps .refl)) hM⟩
  | const l =>
    cases hu.of_normalize hU (PosTerm.hasType_const.mp ht)
    exact ⟨_, .const l⟩
  | error =>
    obtain ⟨τ', hτ⟩ := PosTerm.hasType_error.mp ht
    exact ⟨_, .error (hu.of_normalize hU hτ).kind?_eq hU.normal⟩

variable {D : List Kind} {G : List NamelessTy} {T T' : NamelessTy} {t t' : PosTerm}
  {M M' : NamelessTerm}

/-- A meaning has the type. -/
theorem hasNamelessType (h : DenotesTerm D G T t M) :
    HasNamelessType (.ofList D) (.ofList G) M T := by
  induction h with
  | var hi h => exact .var h
  | lam hk hS _ ih =>
    rw [← TypeScope.cons_ofList] at ih
    exact .lam hk hS.normalForm ih
  | app _ _ _ _ ihf iht => exact .app ihf iht
  | tyLam _ ih =>
    rw [← TypeScope.pushTy_ofList, ← KindScope.push_ofList] at ih
    exact .tyLam ih
  | inst _ _ hs hT _ ih => exact .inst ih hs.kind?_eq hT
  | const l => exact .const l
  | error hk hT => exact .error hk hT.normalForm

/-- A term means one thing at a type. -/
theorem unique (h : DenotesTerm D G T t M) (h' : DenotesTerm D G T t M') : M = M' := by
  induction h generalizing M' with
  | var hi _ =>
    cases h' with
    | var hi' _ => rw [Int.ofNat_inj.mp (hi.symm.trans hi')]
  | lam _ _ _ ih =>
    cases h' with
    | lam _ _ h => rw [ih h]
  | app hs hS _ _ ihf iht =>
    cases h' with
    | app hs' hS' hf ht =>
      cases hs.unique hs'
      cases hS.unique hS'
      rw [ihf hf, iht ht]
  | tyLam _ ih =>
    cases h' with
    | tyLam h => rw [ih h]
  | inst hb hB hs _ _ ih =>
    cases h' with
    | inst hb' hB' hs' _ ht =>
      cases hb.unique hb'
      cases hB.unique hB'
      rw [ih ht, hs.unique hs']
  | const l =>
    generalize NamelessTy.builtin l.builtin = T at h'
    cases h'
    rfl
  | error =>
    cases h'
    rfl

/-- A term that carries normal types is read off its meaning, with its type. -/
theorem injective (h : DenotesTerm D G T t M) (h' : DenotesTerm D G T' t' M)
    (hn : ∀ s ∈ t.types, s.step = none) (hn' : ∀ s ∈ t'.types, s.step = none) :
    T = T' ∧ t = t' := by
  induction h generalizing T' t' with
  | var hi hT =>
    cases h' with
    | var hi' hT' => exact ⟨Option.some.inj (hT.symm.trans hT'), by rw [hi, hi']⟩
  | lam _ _ _ ih =>
    cases h' with
    | lam _ _ h =>
      obtain ⟨rfl, rfl⟩ := ih h hn hn'
      exact ⟨rfl, rfl⟩
  | app hs hS _ _ ihf iht =>
    cases h' with
    | app hs' hS' hf ht =>
      simp only [PosTerm.types, List.forall_mem_cons, List.forall_mem_append] at hn hn'
      obtain ⟨harrow, rfl⟩ := ihf hf hn.2.1 hn'.2.1
      obtain ⟨rfl, rfl⟩ := iht ht hn.2.2 hn'.2.2
      cases harrow
      exact ⟨rfl, by rw [hs.injective_of_normalForm hs' hS hS' hn.1 hn'.1]⟩
  | tyLam _ ih =>
    cases h' with
    | tyLam h =>
      obtain ⟨rfl, rfl⟩ := ih h hn hn'
      exact ⟨rfl, rfl⟩
  | inst hb hB hs hT _ ih =>
    cases h' with
    | inst hb' hB' hs' hT' ht =>
      simp only [PosTerm.types, List.forall_mem_cons] at hn hn'
      obtain ⟨hall, rfl⟩ := ih ht hn.2.2 hn'.2.2
      cases hall
      refine ⟨hT.unique hT', ?_⟩
      rw [hb.injective_of_normalForm hb' hB hB' hn.1 hn'.1, hs.injective hs']
  | const l =>
    cases h'
    exact ⟨rfl, rfl⟩
  | error =>
    cases h'
    exact ⟨rfl, rfl⟩

end DenotesTerm

end FomegaLab
