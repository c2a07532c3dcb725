-- What a search for a counterexample guarantees. The families list exactly their
-- candidates, so a search that no cap cuts off has tried every candidate up to the depth.
-- What it finds is a candidate that fails; if it goes by size, a smallest one.
import FomegaLab.Proofs.Positional.EnoughFuel
import FomegaLab.Proofs.Search.Visits
import FomegaLab.Search.Index
import Mathlib

namespace FomegaLab

/-! ## Families that list their candidates -/

namespace Family

variable {V : Type} {family : Family V} {size : V → Int} {Candidate : V → Prop}
  {options : SearchOptions} {holds : V → Bool}

/-- Up to the depth, the constructors of the family list the candidates by size, and
the family has no doubt about them. -/
structure ListsCandidates (family : Family V) (size : V → Int) (Candidate : V → Prop)
    (depth : Nat) : Prop where
  size_pos : ∀ v, Candidate v → 1 ≤ size v
  mem_iff : ∀ n, n + 1 ≤ depth → ∀ v,
    (v ∈ family.constructors.flatMap fun c => c (n + 1)) ↔ Candidate v ∧ size v = (n + 1 : Nat)
  contains : ∀ v, Candidate v → size v ≤ depth → family.contains v = true

namespace ListsCandidates

/-- The candidates may be members of another sort, made into values one by one. -/
theorem of_members {C W : Type} {cs : List C} {list : C → Nat → List W} {make : W → V}
    {Member : W → Prop} {depth : Nat}
    (hcs : family.constructors = cs.map fun c n => (list c n).map make)
    (hcandidate : ∀ v, Candidate v ↔ ∃ w, Member w ∧ make w = v)
    (hpos : ∀ w, Member w → 1 ≤ size (make w))
    (hlists : ∀ n, n + 1 ≤ depth → ∀ w,
      (w ∈ cs.flatMap fun c => list c (n + 1)) ↔ Member w ∧ size (make w) = (n + 1 : Nat))
    (hcontains : ∀ w, Member w → size (make w) ≤ depth → family.contains (make w) = true) :
    family.ListsCandidates size Candidate depth := by
  constructor
  · intro v hv
    obtain ⟨w, hw, rfl⟩ := (hcandidate v).mp hv
    exact hpos w hw
  · intro n hn v
    rw [hcs, List.flatMap_map, ← List.map_flatMap, List.mem_map, hcandidate]
    constructor
    · rintro ⟨w, hw, rfl⟩
      obtain ⟨hw, hsize⟩ := (hlists n hn w).mp hw
      exact ⟨⟨w, hw, rfl⟩, hsize⟩
    · rintro ⟨⟨w, hw, rfl⟩, hsize⟩
      exact ⟨w, (hlists n hn w).mpr ⟨hw, hsize⟩, rfl⟩
  · intro v hv hsize
    obtain ⟨w, hw, rfl⟩ := (hcandidate v).mp hv
    exact hcontains w hw hsize

variable (h : family.ListsCandidates size Candidate options.depth)

include h

theorem mem_values_iff {v : V} :
    v ∈ family.values options ↔ Candidate v ∧ size v ≤ options.depth := by
  rw [Family.values, Visits.mem_toList_ofOptions]
  constructor
  · rintro ⟨n, hpos, hn, hv⟩
    obtain ⟨n, rfl⟩ : ∃ m, n = m + 1 := ⟨n - 1, by omega⟩
    obtain ⟨hc, hsize⟩ := (h.mem_iff n hn v).mp hv
    exact ⟨hc, by omega⟩
  · rintro ⟨hc, hsize⟩
    have hpos := h.size_pos v hc
    obtain ⟨n, hn⟩ : ∃ n : Nat, size v = (n + 1 : Nat) := ⟨(size v).toNat - 1, by omega⟩
    exact ⟨n + 1, by omega, by omega, (h.mem_iff n (by omega) v).mpr ⟨hc, hn⟩⟩

theorem filter_values : (family.values options).filter family.contains = family.values options := by
  refine List.filter_eq_self.mpr fun v hv => ?_
  obtain ⟨hc, hsize⟩ := h.mem_values_iff.mp hv
  exact h.contains v hc hsize

/-- Going by size, no value comes before a smaller one. -/
theorem pairwise_values (hs : options.strategy = .sized) :
    (family.values options).Pairwise fun v w => size v ≤ size w := by
  have hlevel : ∀ n ∈ List.range' 1 options.depth, ∀ v ∈ family.constructors.flatMap fun c => c n,
      size v = n := by
    intro n hn v hv
    rw [List.mem_range'_1] at hn
    obtain ⟨n, rfl⟩ : ∃ m, n = m + 1 := ⟨n - 1, by omega⟩
    exact ((h.mem_iff n (by omega) v).mp hv).2
  rw [Family.values, Visits.ofOptions, hs]
  simp only [Visits.toList_bySize]
  refine List.pairwise_flatMap.mpr ⟨?_, ?_⟩
  · intro n hn
    refine List.pairwise_of_forall_mem_list fun v hv w hw => ?_
    exact Int.le_of_eq ((hlevel n hn v hv).trans (hlevel n hn w hw).symm)
  · refine List.Pairwise.imp_of_mem ?_ List.pairwise_lt_range'
    intro n m hn hm hlt v hv w hw
    rw [hlevel n hn v hv, hlevel m hm w hw]
    omega

end ListsCandidates

/-! ## What a search answers -/

/-- A search looks through a prefix of the values that belong, and through all of them
unless the cap is reached. -/
theorem search_eq_ok {r : SearchResult V} (h : family.search options holds = .ok r) :
    ∃ ms, r = Search.firstFailureIn holds ms 0 ∧
      ms <+: (family.values options).filter family.contains ∧
      ((∀ cap ∈ options.cap, ms.length < cap) →
        ms = (family.values options).filter family.contains) := by
  rw [search_eq, members_eq] at h
  cases hcap : options.countedCap with
  | error fault =>
    rw [hcap] at h
    cases h
  | ok cap =>
    rw [hcap] at h
    cases h
    obtain ⟨rfl, _⟩ := SearchOptions.countedCap_eq_ok_iff.mp hcap
    refine ⟨_, rfl, ?_⟩
    cases options.cap with
    | none => exact ⟨List.prefix_refl _, fun _ => rfl⟩
    | some cap =>
      refine ⟨List.take_prefix _ _, fun hlt => List.take_of_length_le ?_⟩
      have hlength := hlt cap rfl
      change (List.take cap ((family.values options).filter family.contains)).length < cap
        at hlength
      rw [List.length_take] at hlength
      omega

/-- A cap that can be counted to keeps no search from its answer. -/
theorem exists_search_eq_ok (family : Family V) (holds : V → Bool)
    (h : ∀ cap ∈ options.cap, cap < wordLimit) : ∃ r, family.search options holds = .ok r := by
  have hcap : options.countedCap = .ok options.cap :=
    SearchOptions.countedCap_eq_ok_iff.mpr ⟨rfl, h⟩
  rw [Family.search, toSearch, hcap]
  exact ⟨_, rfl⟩

namespace ListsCandidates

variable (h : family.ListsCandidates size Candidate options.depth)

include h

theorem holds_of_exhausted {count : Nat} (hs : family.search options holds = .ok (.exhausted count))
    (hcap : ∀ cap ∈ options.cap, count < cap) {v : V} (hv : Candidate v)
    (hsize : size v ≤ options.depth) : holds v = true := by
  obtain ⟨ms, hr, _, hall⟩ := search_eq_ok hs
  obtain ⟨hcount, hholds⟩ := Search.firstFailureIn_eq_exhausted_iff.mp hr.symm
  rw [Nat.zero_add] at hcount
  apply hholds
  rw [hall (hcount ▸ hcap), h.filter_values]
  exact h.mem_values_iff.mpr ⟨hv, hsize⟩

theorem fails_of_found {v : V} {count : Nat}
    (hs : family.search options holds = .ok (.found v count)) :
    Candidate v ∧ size v ≤ options.depth ∧ holds v = false := by
  obtain ⟨ms, hr, hprefix, _⟩ := search_eq_ok hs
  obtain ⟨pre, post, rfl, _, hv, _⟩ := Search.firstFailureIn_eq_found_iff.mp hr.symm
  have hmem := hprefix.subset (List.mem_append_right pre List.mem_cons_self)
  rw [h.filter_values, h.mem_values_iff] at hmem
  exact ⟨hmem.1, hmem.2, hv⟩

theorem smallest_of_found {v : V} {count : Nat}
    (hs : family.search options holds = .ok (.found v count)) (hsized : options.strategy = .sized)
    {w : V} (hw : Candidate w) (hlt : size w < size v) : holds w = true := by
  obtain ⟨ms, hr, ⟨tail, htail⟩, _⟩ := search_eq_ok hs
  obtain ⟨pre, post, rfl, hpre, _, _⟩ := Search.firstFailureIn_eq_found_iff.mp hr.symm
  have hdepth := (h.fails_of_found hs).2.1
  have hsorted := h.pairwise_values hsized
  have hmem : w ∈ family.values options := h.mem_values_iff.mpr ⟨hw, by omega⟩
  rw [h.filter_values, List.append_assoc, List.cons_append] at htail
  rw [← htail] at hsorted hmem
  rcases List.mem_append.mp hmem with hmem | hmem
  · exact hpre w hmem
  · -- what comes after the value found is not smaller
    have hafter := (List.pairwise_append.mp hsorted).2.1
    rcases List.mem_cons.mp hmem with rfl | hmem
    · omega
    · have := (List.pairwise_cons.mp hafter).1 w hmem
      omega

end ListsCandidates

end Family

/-! ## The families of positional values -/

/-- Only terms carry types and literals. -/
def Sample.IsCanonical : Sample → Prop
  | .term t => t.IsCanonical
  | _ => True

namespace Index

/-- Terms are searched at closed types. -/
def IsClosed : Index → Prop
  | termsOfType type => type.hasKind [] .star = true
  | _ => True

/-- The values that the family has at some fuel, with canonical parts. -/
def Candidate (index : Index) (v : Sample) : Prop :=
  (∃ fuel, index.contains fuel v = true) ∧ v.IsCanonical

theorem listsCandidates_types (fuel : Nat) (k : Kind) (depth : Nat) :
    ((typesOfKind k).family fuel).ListsCandidates Sample.size
      (Candidate (typesOfKind k)) depth := by
  have hcandidate : ∀ v, Candidate (typesOfKind k) v ↔
      ∃ t, PosTy.InGrammar PosTy.anyType [] k t ∧ .type t = v := by
    intro v
    cases v <;> simp [Candidate, contains, Sample.IsCanonical, PosTy.InGrammar, PosTy.anyType]
  refine .of_members rfl hcandidate ?_ ?_ ?_
  · intro t ht
    exact ht.size_pos
  · intro n _
    exact (TyEnumeration.plain_lists (fun D k m _ => PosTy.ofSize_lists D k m) [] k).mem_iff
  · intro t ht _
    exact ht.1

theorem listsCandidates_normalTypes (fuel : Nat) (k : Kind) (depth : Nat) :
    ((normalTypesOfKind k).family fuel).ListsCandidates Sample.size
      (Candidate (normalTypesOfKind k)) depth := by
  have hcandidate : ∀ v, Candidate (normalTypesOfKind k) v ↔
      ∃ t, PosTy.InGrammar PosTy.isNormal [] k t ∧ .normalType t = v := by
    intro v
    cases v <;> simp [Candidate, contains, Sample.IsCanonical, PosTy.InGrammar]
  refine .of_members rfl hcandidate ?_ ?_ ?_
  · intro t ht
    exact ht.size_pos
  · intro n _
    exact (TyEnumeration.normal_lists (fun D k m _ => PosTy.normalOfSize_lists D k m)
      (fun D k m _ => PosTy.neutralOfSize_lists D k m) [] k).mem_iff
  · intro t ht _
    exact Bool.and_eq_true_iff.mpr ht

theorem listsCandidates_terms {type : PosTy} (hk : type.hasKind [] .star = true) (depth : Nat) :
    ∃ d, ∀ fuel ≥ d, ((termsOfType type).family fuel).ListsCandidates Sample.size
      (Candidate (termsOfType type)) depth := by
  obtain ⟨u, hu⟩ := Denotes.exists_of_hasKind hk
  obtain ⟨d, normal, _, hd, _⟩ := hu.exists_normalize
  have hstep := PosTy.step_eq_none_of_normalize (hd d (Nat.le_refl d))
  have hscope : ∀ s ∈ ([] : List PosTy), s.step = none := nofun
  obtain ⟨e, he⟩ := PosTerm.exists_enough_fuel_upTo (D := []) hscope hstep depth
  have hcandidate : ∀ v, Candidate (termsOfType type) v ↔
      ∃ t, (PosTerm.Typed [] [] normal t ∧ t.IsCanonical) ∧ .term t = v := by
    intro v
    cases v with
    | term t =>
      have htyped : (∃ fuel, t.hasType fuel [] [] type = true) ↔ t.Typed [] [] normal :=
        PosTerm.typed_normalize hd
      simp [Candidate, contains, Sample.IsCanonical, hk, htyped]
    | _ => simp [Candidate, contains]
  refine ⟨max d e, ?_⟩
  intro fuel hfuel
  have hnormal := hd fuel (by omega)
  have hcs : ((termsOfType type).family fuel).constructors =
      (TermEnumeration.constructors fuel (PosTerm.ofSize fuel)).map fun c n =>
        (c [] [] normal n).map .term := by
    simp only [family, constructors, hnormal]
  refine .of_members hcs hcandidate ?_ ?_ ?_
  · rintro t ⟨⟨fuel', ht⟩, _⟩
    exact PosTerm.size_pos_of_hasType ht
  · intro n hn t
    have hlists := TermEnumeration.constructors_list (n := n) (D := [])
      (fun D G τ m hG hτ _ => PosTerm.ofSize_lists hG hτ fuel m) hscope hstep
    rw [hlists.mem_iff]
    constructor
    · rintro ⟨ht, hsize⟩
      exact ⟨⟨⟨fuel, ht.1⟩, ht.2⟩, hsize⟩
    · rintro ⟨⟨ht, hc⟩, hsize⟩
      have hsize' : t.size = (n + 1 : Nat) := hsize
      exact ⟨⟨he fuel (by omega) t hc (by omega) ht, hc⟩, hsize⟩
  · rintro t ⟨ht, hc⟩ hsize
    have htype := he fuel (by omega) t hc hsize ht
    rw [← PosTerm.hasType_normalize hnormal] at htype
    exact Bool.and_eq_true_iff.mpr ⟨hk, htype⟩

theorem listsCandidates {index : Index} (h : index.IsClosed) (depth : Nat) :
    ∃ d, ∀ fuel ≥ d, (index.family fuel).ListsCandidates Sample.size index.Candidate depth := by
  cases index with
  | typesOfKind k => exact ⟨0, fun fuel _ => listsCandidates_types fuel k depth⟩
  | normalTypesOfKind k => exact ⟨0, fun fuel _ => listsCandidates_normalTypes fuel k depth⟩
  | termsOfType type => exact listsCandidates_terms h depth

end Index

/-- A search that ends without a counterexample, short of its cap, has tried every
candidate up to the depth. What a search finds is a candidate that fails, and a search by
size finds none while a smaller one fails. A cap that can be counted to keeps no search
from its answer. -/
theorem a_search_misses_no_counterexample {index : Index} (h : index.IsClosed)
    (options : SearchOptions) :
    ∃ d, ∀ fuel ≥ d, ∀ holds : Sample → Bool,
      (∀ count, (index.family fuel).search options holds = .ok (.exhausted count) →
        (∀ cap ∈ options.cap, count < cap) →
        ∀ v, index.Candidate v → v.size ≤ options.depth → holds v = true) ∧
      (∀ v count, (index.family fuel).search options holds = .ok (.found v count) →
        index.Candidate v ∧ v.size ≤ options.depth ∧ holds v = false ∧
          (options.strategy = .sized →
            ∀ w, index.Candidate w → w.size < v.size → holds w = true)) ∧
      ((∀ cap ∈ options.cap, cap < wordLimit) →
        ∃ r, (index.family fuel).search options holds = .ok r) := by
  obtain ⟨d, hd⟩ := Index.listsCandidates h options.depth
  refine ⟨d, ?_⟩
  intro fuel hfuel holds
  have hlists := hd fuel hfuel
  refine ⟨?_, ?_, Family.exists_search_eq_ok _ holds⟩
  · intro count hs hcap v hv hsize
    exact hlists.holds_of_exhausted hs hcap hv hsize
  · intro v count hs
    obtain ⟨hv, hsize, hfails⟩ := hlists.fails_of_found hs
    exact ⟨hv, hsize, hfails, fun hsized w hw hlt => hlists.smallest_of_found hs hsized hw hlt⟩

/-- Terms at a type that is a redex, seven of them at most. -/
theorem a_search_misses_no_counterexample_at_a_redex :
    let index : Index := .termsOfType (.app (.lam (.var 0)) (.builtin .bool) .star)
    let options : SearchOptions := ⟨4, .sized, some 7, by simp⟩
    index.IsClosed ∧ ∃ d, ∀ fuel ≥ d, ∀ holds : Sample → Bool,
      (∀ count, (index.family fuel).search options holds = .ok (.exhausted count) → count < 7 →
        ∀ v, index.Candidate v → v.size ≤ 4 → holds v = true) ∧
      (∀ v count, (index.family fuel).search options holds = .ok (.found v count) →
        index.Candidate v ∧ v.size ≤ 4 ∧ holds v = false ∧
          ∀ w, index.Candidate w → w.size < v.size → holds w = true) ∧
      ∃ r, (index.family fuel).search options holds = .ok r := by
  intro index options
  have hclosed : index.IsClosed := by
    change PosTy.hasKind [] .star _ = true
    decide
  obtain ⟨d, hd⟩ := a_search_misses_no_counterexample hclosed options
  refine ⟨hclosed, d, fun fuel hfuel holds => ?_⟩
  obtain ⟨hexhausted, hfound, hends⟩ := hd fuel hfuel holds
  have hcap : ∀ P : Nat → Prop, P 7 → ∀ cap ∈ options.cap, P cap := by
    intro P hP cap h
    cases h
    exact hP
  refine ⟨fun count hs hlt => ?_, fun v count hs => ?_, hends (hcap (· < wordLimit) (by decide))⟩
  · exact hexhausted count hs (hcap (count < ·) hlt)
  · obtain ⟨hv, hsize, hfails, hsmallest⟩ := hfound v count hs
    exact ⟨hv, hsize, hfails, hsmallest rfl⟩

end FomegaLab
