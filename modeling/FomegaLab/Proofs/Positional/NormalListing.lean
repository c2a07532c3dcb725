-- The enumerations of normal and of neutral types list what the enumeration of all types
-- lists, in the same order, without the types that are not normal or not neutral. The
-- grammars recurse on the same bound, so one level of one follows one level of the other,
-- constructor by constructor.
import FomegaLab.Positional.Enumerate
import Mathlib.Data.List.Basic

namespace FomegaLab

namespace TyEnumeration

variable {N F A : PosTy → Bool} {e e' fs fs' as as' : TyEnumeration}

/-- An enumeration lists the types that another one lists and a grammar has, in the order
in which the other one lists them. -/
def Restricts (e' e : TyEnumeration) (N : PosTy → Bool) : Prop :=
  ∀ D k n, e' D k n = (e D k n).filter N

/-- The enumeration of no types. -/
def nothing : TyEnumeration := fun _ _ _ => []

/-- The grammar of no types. -/
def noType (_ : PosTy) : Bool := false

theorem nothing_restricts (h : ∀ D k n, ∀ t ∈ e D k n, N t = false) : nothing.Restricts e N := by
  intro D k n
  refine (List.filter_eq_nil_iff.mpr fun t ht => ?_).symm
  rw [h D k n t ht]
  exact Bool.false_ne_true

/-! ## One constructor at a time -/

theorem references_restricts (hN : ∀ i, N (.var i) = true) : references.Restricts references N := by
  intro D k n
  refine (List.filter_eq_self.mpr fun t ht => ?_).symm
  cases n with
  | zero => cases ht
  | succ i =>
    rw [references] at ht
    split at ht
    · rw [List.mem_singleton.mp ht, hN]
    · cases ht

theorem mem_builtins {D : List Kind} {k : Kind} {n : Nat} {t : PosTy} (h : t ∈ builtins D k n) :
    ∃ b, .builtin b = t := by
  rw [builtins] at h
  split at h
  · obtain ⟨b, _, hb⟩ := List.mem_map.mp h
    exact ⟨b, hb⟩
  · cases h

theorem builtins_restricts (hN : ∀ b, N (.builtin b) = true) : builtins.Restricts builtins N := by
  intro D k n
  refine (List.filter_eq_self.mpr fun t ht => ?_).symm
  obtain ⟨b, rfl⟩ := mem_builtins ht
  exact hN b

theorem functions_restricts (he : e'.Restricts e N) {N' : PosTy → Bool}
    (hN : ∀ s t, N' (.arrow s t) = (N s && N t)) : (functions e').Restricts (functions e) N' := by
  intro D k n
  simp only [functions]
  split
  · rw [List.filter_flatMap]
    refine List.flatMap_congr fun p _ => ?_
    rw [filter_cross hN, he, he]
  · rfl

theorem foralls_restricts (he : e'.Restricts e N) {N' : PosTy → Bool}
    (hN : ∀ j t, N' (.all j t) = N t) : (foralls e').Restricts (foralls e) N' := by
  intro D k n
  simp only [foralls]
  split
  · simp only [List.filter_flatMap, List.filter_map, Function.comp_def, hN, ← he _ _ _]
  · rfl

theorem lambdas_restricts (he : e'.Restricts e N) {N' : PosTy → Bool}
    (hN : ∀ t, N' (.lam t) = N t) : (lambdas e').Restricts (lambdas e) N' := by
  intro D k n
  cases k with
  | star => rfl
  | arrow j k => simp only [lambdas, List.filter_map, Function.comp_def, hN, ← he _ _ _]

theorem applications_restricts (hf : fs'.Restricts fs F) (ha : as'.Restricts as A)
    {N' : PosTy → Bool} (hN : ∀ f t j, N' (.app f t j) = (F f && A t)) :
    (applications fs' as').Restricts (applications fs as) N' := by
  intro D k n
  simp only [applications, List.filter_flatMap]
  refine List.flatMap_congr fun p _ => List.flatMap_congr fun j _ => ?_
  refine List.flatMap_congr fun q _ => ?_
  rw [filter_cross fun f t => hN f t j, hf, ha]

/-! ## All constructors -/

theorem ofConstructors_restricts {cs cs' : List TyEnumeration}
    (h : List.Forall₂ (fun c' c => c'.Restricts c N) cs' cs) :
    (ofConstructors cs').Restricts (ofConstructors cs) N := by
  intro D k n
  simp only [ofConstructors]
  split
  · rfl
  · induction h with
    | nil => rfl
    | cons hc _ ih => rw [List.flatMap_cons, List.flatMap_cons, List.filter_append, hc D k n, ih]

theorem normal_restricts (hn : e'.Restricts e PosTy.isNormal)
    (hs : fs.Restricts e PosTy.isNeutral) :
    (ofConstructors (normal e' fs)).Restricts (ofConstructors (plain e)) PosTy.isNormal := by
  have h : List.Forall₂ (fun c' c => Restricts c' c PosTy.isNormal) (normal e' fs) (plain e) :=
    .cons (references_restricts fun _ => rfl) <| .cons (builtins_restricts fun _ => rfl) <|
    .cons (functions_restricts hn fun _ _ => rfl) <| .cons (foralls_restricts hn fun _ _ => rfl) <|
    .cons (lambdas_restricts hn fun _ => rfl) <|
    .cons (applications_restricts hs hn fun _ _ _ => rfl) .nil
  exact ofConstructors_restricts h

/-- The neutral grammar has no types of the constructors that it leaves out. With nothing
for their parts, these constructors list nothing either. -/
theorem ofConstructors_neutral (e fs : TyEnumeration) :
    ofConstructors (neutral e fs) =
      ofConstructors [references, nothing, functions nothing, foralls nothing, lambdas nothing,
        applications fs e] := by
  funext D k n
  have hfunctions : functions nothing D k n = [] := by simp [functions, nothing, cross]
  have hforalls : foralls nothing D k n = [] := by simp [foralls, nothing]
  have hlambdas : lambdas nothing D k n = [] := by cases k <;> rfl
  simp [ofConstructors, neutral, nothing, hfunctions, hforalls, hlambdas]

theorem neutral_restricts (hn : e'.Restricts e PosTy.isNormal)
    (hs : fs.Restricts e PosTy.isNeutral) :
    (ofConstructors (neutral e' fs)).Restricts (ofConstructors (plain e)) PosTy.isNeutral := by
  have hno : nothing.Restricts e noType := nothing_restricts fun _ _ _ _ _ => rfl
  have hbuiltins : nothing.Restricts builtins PosTy.isNeutral := by
    refine nothing_restricts fun D k n t ht => ?_
    obtain ⟨b, rfl⟩ := mem_builtins ht
    rfl
  have h : List.Forall₂ (fun c' c => Restricts c' c PosTy.isNeutral)
      [references, nothing, functions nothing, foralls nothing, lambdas nothing,
        applications fs e'] (plain e) :=
    .cons (references_restricts fun _ => rfl) <| .cons hbuiltins <|
    .cons (functions_restricts hno fun _ _ => rfl) <|
    .cons (foralls_restricts hno fun _ _ => rfl) <|
    .cons (lambdas_restricts hno fun _ => rfl) <|
    .cons (applications_restricts hs hn fun _ _ _ => rfl) .nil
  rw [ofConstructors_neutral]
  exact ofConstructors_restricts h

end TyEnumeration

namespace PosTy

open TyEnumeration

theorem ofSizeWithin_restricts (bound : Nat) :
    (normalOfSizeWithin bound).Restricts (ofSizeWithin bound) isNormal ∧
      (neutralOfSizeWithin bound).Restricts (ofSizeWithin bound) isNeutral := by
  induction bound with
  | zero =>
    rw [normalOfSizeWithin, neutralOfSizeWithin]
    exact ⟨fun _ _ _ => rfl, fun _ _ _ => rfl⟩
  | succ bound ih =>
    rw [normalOfSizeWithin, neutralOfSizeWithin]
    exact ⟨normal_restricts ih.1 ih.2, neutral_restricts ih.1 ih.2⟩

/-- The normal types of a kind and a size are listed as they stand among all types of this
kind and size, and so are the neutral ones. -/
theorem normal_types_are_listed_as_among_all_types (D : List Kind) (k : Kind) (n : Int) :
    normalOfSize D k n.toNat = (ofSize D k n.toNat).filter isNormal ∧
      neutralOfSize D k n.toNat = (ofSize D k n.toNat).filter isNeutral := by
  obtain ⟨hnormal, hneutral⟩ := ofSizeWithin_restricts n.toNat
  exact ⟨hnormal D k n.toNat, hneutral D k n.toNat⟩

end PosTy

end FomegaLab
