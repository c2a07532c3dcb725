-- What a search visits and in which order, and that offering values one by one is a
-- loop over the members. So what a search finds is the first member that fails.
import FomegaLab.Search.Visits

namespace FomegaLab

variable {V : Type}

namespace Visits

/-! ## The order of the visits -/

theorem toList_atSize (n : Nat) (rest : Unit → Visits V) (cs : List (Nat → List V)) :
    (atSize n rest cs).toList = (cs.flatMap fun c => c n) ++ (rest ()).toList := by
  induction cs with
  | nil => rfl
  | cons c cs ih => rw [atSize, toList, ih, List.flatMap_cons, List.append_assoc]

/-- Size by size, with every constructor at each. -/
theorem toList_bySize (cs : List (Nat → List V)) (count n : Nat) :
    (bySize cs count n).toList =
      (List.range' n count).flatMap fun m => cs.flatMap fun c => c m := by
  induction count generalizing n with
  | zero => rfl
  | succ count ih => rw [bySize, toList_atSize, ih, List.range'_succ, List.flatMap_cons]

theorem toList_atConstructor (c : Nat → List V) (rest : Unit → Visits V) (count n : Nat) :
    (atConstructor c rest count n).toList =
      (List.range' n count).flatMap c ++ (rest ()).toList := by
  induction count generalizing n with
  | zero => rfl
  | succ count ih =>
    rw [atConstructor, toList, ih, List.range'_succ, List.flatMap_cons, List.append_assoc]

/-- Constructor by constructor, with every size at each. -/
theorem toList_byConstructor (count : Nat) (cs : List (Nat → List V)) :
    (byConstructor count cs).toList = cs.flatMap fun c => (List.range' 1 count).flatMap c := by
  induction cs with
  | nil => rfl
  | cons c cs ih => rw [byConstructor, toList_atConstructor, ih, List.flatMap_cons]

/-- Either way, the values of all constructors at all sizes up to the depth. -/
theorem mem_toList_ofOptions {options : SearchOptions} {cs : List (Nat → List V)} {v : V} :
    v ∈ (ofOptions options cs).toList ↔
      ∃ n, 1 ≤ n ∧ n ≤ options.depth ∧ v ∈ cs.flatMap fun c => c n := by
  have hsize : ∀ n, n ∈ List.range' 1 options.depth ↔ 1 ≤ n ∧ n ≤ options.depth := by
    intro n
    rw [List.mem_range'_1]
    omega
  rw [ofOptions]
  cases options.strategy with
  | sized =>
    simp only [toList_bySize, List.mem_flatMap, hsize, and_assoc]
  | depthFirst =>
    simp only [toList_byConstructor, List.mem_flatMap, hsize]
    constructor
    · rintro ⟨c, hc, n, ⟨hpos, hn⟩, hv⟩
      exact ⟨n, hpos, hn, c, hc, hv⟩
    · rintro ⟨n, hpos, hn, c, hc, hv⟩
      exact ⟨c, hc, n, ⟨hpos, hn⟩, hv⟩

/-! ## The loop over the members -/

section Offer

variable {m : Type → Type} [Monad m] [LawfulMonad m] {β : Type} {cap : Option Nat}
  {contains : V → Bool} {f : V → β → m (ForInStep β)}

/-- Offers values one by one until `f` is done with them. -/
def offerAll (f : V → β → m (ForInStep β)) : List V → (count : Nat) → β → m (Nat × β)
  | [], count, b => pure (count, b)
  | v :: vs, count, b => do
    match ← f v b with
    | .done b => pure (count + 1, b)
    | .yield b => offerAll f vs (count + 1) b

theorem membersAfter_of_isFull {count : Nat} (h : isFull cap count = true) (vs : Visits V) :
    vs.membersAfter cap contains count = [] := by
  cases vs with
  | done => rfl
  | visit values rest => rw [membersAfter, if_pos h]

theorem firstOf_of_isFull {count : Nat} (h : isFull cap count = true) (vs : List V) :
    firstOf (cap.map (· - count)) vs = [] := by
  cases cap with
  | none => cases h
  | some cap =>
    have hle : cap ≤ count := of_decide_eq_true h
    rw [Option.map_some, firstOf, Nat.sub_eq_zero_of_le hle, List.take_zero]

theorem firstOf_cons {count : Nat} (h : isFull cap count = false) (v : V) (vs : List V) :
    firstOf (cap.map (· - count)) (v :: vs) = v :: firstOf (cap.map (· - (count + 1))) vs := by
  cases cap with
  | none => rfl
  | some cap =>
    have hlt : ¬ cap ≤ count := of_decide_eq_false h
    obtain ⟨k, hk⟩ : ∃ k, cap - count = k + 1 := ⟨cap - count - 1, by omega⟩
    have hk' : cap - (count + 1) = k := by omega
    simp only [Option.map_some, firstOf, hk, hk', List.take_succ_cons]

/-- One visit and then the rest. The visit ends early if the cap is reached in it, and
then the rest offers nothing either. -/
theorem offerList_bind {rest : Visits V}
    (hrest : ∀ count b, rest.offer cap contains f count b =
      offerAll f (rest.membersAfter cap contains count) count b)
    (vs : List V) (count : Nat) (b : β) :
    (offerList cap contains f vs count b >>= fun
      | .done r => pure r
      | .yield (count, b) => rest.offer cap contains f count b) =
    let found := firstOf (cap.map (· - count)) (vs.filter contains)
    offerAll f (found ++ rest.membersAfter cap contains (count + found.length)) count b := by
  induction vs generalizing count b with
  | nil =>
    have hnil : firstOf (cap.map (· - count)) ([] : List V) = [] := by
      cases cap <;> simp [firstOf]
    rw [offerList, pure_bind, List.filter_nil, hnil]
    exact hrest count b
  | cons v vs ih =>
    rw [offerList]
    cases hfull : isFull cap count with
    | true =>
      simp only [if_true, pure_bind, firstOf_of_isFull hfull, List.nil_append, List.length_nil,
        Nat.add_zero, membersAfter_of_isFull hfull]
      rfl
    | false =>
      cases hv : contains v with
      | false =>
        simp only [Bool.false_eq_true, if_false, List.filter_cons, hv]
        exact ih count b
      | true =>
        simp only [Bool.false_eq_true, if_false, if_true, List.filter_cons, hv, firstOf_cons hfull,
          bind_assoc, List.cons_append, offerAll, List.length_cons]
        refine bind_congr fun r => ?_
        cases r with
        | done b => exact pure_bind _ _
        | yield b =>
          have hnext := ih (count + 1) b
          simp only [Nat.add_right_comm count 1] at hnext
          exact hnext

/-- Offering the visits is offering the members. -/
theorem offer_eq (vs : Visits V) (count : Nat) (b : β) :
    vs.offer cap contains f count b =
      offerAll f (vs.membersAfter cap contains count) count b := by
  induction vs generalizing count b with
  | done => rfl
  | visit values rest ih =>
    rw [offer, membersAfter]
    cases hfull : isFull cap count with
    | true => rfl
    | false => exact offerList_bind (ih ()) (values ()) count b

end Offer

end Visits

/-! ## The first member that fails -/

namespace Search

variable {holds : V → Bool}

/-- Looks for the first value that fails, after `count` others. -/
def firstFailureIn (holds : V → Bool) : List V → (count : Nat) → SearchResult V
  | [], count => .exhausted count
  | v :: vs, count =>
    if holds v then firstFailureIn holds vs (count + 1) else .found v (count + 1)

theorem firstFailureIn_eq_exhausted_iff {vs : List V} {n count : Nat} :
    firstFailureIn holds vs n = .exhausted count ↔
      count = n + vs.length ∧ ∀ v ∈ vs, holds v = true := by
  induction vs generalizing n with
  | nil =>
    rw [firstFailureIn, SearchResult.exhausted.injEq, List.length_nil, Nat.add_zero]
    exact ⟨fun h => ⟨h.symm, nofun⟩, fun h => h.1.symm⟩
  | cons v vs ih =>
    rw [firstFailureIn, List.forall_mem_cons, List.length_cons]
    cases holds v with
    | true =>
      simp only [if_true, true_and, ih]
      rw [Nat.add_assoc, Nat.add_comm 1]
    | false => simp

theorem firstFailureIn_eq_found_iff {vs : List V} {n count : Nat} {v : V} :
    firstFailureIn holds vs n = .found v count ↔
      ∃ pre post, vs = pre ++ v :: post ∧ (∀ w ∈ pre, holds w = true) ∧ holds v = false ∧
        count = n + pre.length + 1 := by
  induction vs generalizing n with
  | nil => simp [firstFailureIn]
  | cons w vs ih =>
    rw [firstFailureIn]
    cases hw : holds w with
    | true =>
      rw [if_pos rfl, ih]
      constructor
      · rintro ⟨pre, post, rfl, hpre, hv, hcount⟩
        refine ⟨w :: pre, post, rfl, List.forall_mem_cons.mpr ⟨hw, hpre⟩, hv, ?_⟩
        rw [List.length_cons]
        omega
      · rintro ⟨pre, post, hvs, hpre, hv, hcount⟩
        cases pre with
        | nil =>
          cases hvs
          rw [hw] at hv
          cases hv
        | cons x pre =>
          cases hvs
          refine ⟨pre, post, rfl, (List.forall_mem_cons.mp hpre).2, hv, ?_⟩
          rw [List.length_cons] at hcount
          omega
    | false =>
      rw [if_neg Bool.false_ne_true]
      constructor
      · intro h
        cases h
        exact ⟨[], vs, rfl, nofun, hw, rfl⟩
      · rintro ⟨pre, post, hvs, hpre, hv, hcount⟩
        cases pre with
        | nil =>
          cases hvs
          rw [hcount]
          rfl
        | cons x pre =>
          cases hvs
          rw [(List.forall_mem_cons.mp hpre).1] at hw
          cases hw

theorem offer_eq {m : Type → Type} [Monad m] [LawfulMonad m] {β : Type} (search : Search V)
    (f : V → β → m (ForInStep β)) (b : β) :
    search.offer f b = Visits.offerAll f search.members 0 b :=
  Visits.offer_eq search.visits 0 b

theorem firstFailure_eq (search : Search V) (holds : V → Bool) :
    Id.run (search.firstFailure fun v => pure (holds v)) =
      firstFailureIn holds search.members 0 := by
  rw [firstFailure, offer_eq]
  generalize search.members = vs
  generalize 0 = n
  induction vs generalizing n with
  | nil => rfl
  | cons v vs ih =>
    rw [Visits.offerAll, firstFailureIn]
    cases hv : holds v with
    | true => exact ih (n + 1)
    | false => rfl

end Search

/-! ## The members of a search that can begin -/

namespace Family

variable {V : Type} {family : Family V} {options : SearchOptions} {ms : List V}

/-- A search has members exactly if it can begin. -/
theorem members_eq_ok_iff :
    family.members options = .ok ms ↔
      ∃ search, family.toSearch options = .ok search ∧ search.members = ms := by
  rw [members]
  cases family.toSearch options <;> simp [Except.map]

theorem members_eq_error_iff {f : SearchFault} :
    family.members options = .error f ↔ family.toSearch options = .error f := by
  rw [members]
  cases family.toSearch options <;> simp [Except.map]

/-- The members are the first of the values that belong, as many as the cap allows. -/
theorem members_eq (family : Family V) (options : SearchOptions) :
    family.members options = options.countedCap.map fun cap =>
      Visits.firstOf cap ((family.values options).filter family.contains) := by
  rw [members, toSearch]
  cases options.countedCap with
  | error f => rfl
  | ok cap =>
    cases cap with
    | none => exact congrArg Except.ok (Visits.membersAfter_none _ _ 0)
    | some cap => exact congrArg Except.ok (Visits.membersAfter_some cap _ _ 0)

/-- A search begins exactly if its cap is a word. -/
theorem exists_members_iff (family : Family V) (options : SearchOptions) :
    (∃ ms, family.members options = .ok ms) ↔ ∀ cap ∈ options.cap, cap < wordLimit := by
  rw [members_eq]
  constructor
  · rintro ⟨ms, h⟩
    cases hcap : options.countedCap with
    | error f =>
      rw [hcap] at h
      cases h
    | ok cap => exact (SearchOptions.countedCap_eq_ok_iff.mp hcap).2
  · intro h
    rw [SearchOptions.countedCap_eq_ok_iff.mpr ⟨rfl, h⟩]
    exact ⟨_, rfl⟩

theorem contains_of_mem_members (h : family.members options = .ok ms) {v : V} (hv : v ∈ ms) :
    family.contains v = true := by
  rw [members_eq] at h
  cases hcap : options.countedCap with
  | error f =>
    rw [hcap] at h
    cases h
  | ok cap =>
    rw [hcap] at h
    cases h
    cases cap with
    | none => exact (List.mem_filter.mp hv).2
    | some cap => exact (List.mem_filter.mp (List.mem_of_mem_take hv)).2

/-- A search finds the first failure among the members. -/
theorem search_eq (family : Family V) (options : SearchOptions) (holds : V → Bool) :
    family.search options holds =
      (family.members options).map fun ms => Search.firstFailureIn holds ms 0 := by
  rw [Family.search, members]
  cases family.toSearch options with
  | error f => rfl
  | ok search => exact congrArg Except.ok (Search.firstFailure_eq search holds)

end Family

end FomegaLab
