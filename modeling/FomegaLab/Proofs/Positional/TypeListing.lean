-- What the enumerations of kinds and types list: each kind of a size once, and each
-- type of a kind and a size once. The types may be all types, the normal ones or the
-- neutral ones; a constructor does not care which, as long as its parts are listed so.
import FomegaLab.Positional.Enumerate
import FomegaLab.Proofs.Listing

namespace FomegaLab

/-! ## Kinds -/

namespace Kind

theorem arrow_injective : Function.Injective2 arrow := fun _ _ _ _ h => Kind.arrow.inj h

theorem one_le_cast_size (k : Kind) : (1 : Int) ≤ k.size := by
  have := k.size_pos
  omega

theorem ofSizeWithin_lists {bound n : Nat} (h : n ≤ bound) :
    Lists (ofSizeWithin bound n) fun k => k.size = n := by
  induction bound generalizing n with
  | zero =>
    refine .nil fun k hk => ?_
    have := k.size_pos
    omega
  | succ bound ih =>
    rw [ofSizeWithin]
    by_cases hn : n = 1
    · rw [if_pos hn]
      refine (Lists.singleton star).congr fun k => ?_
      cases k with
      | star => simp [size, hn]
      | arrow j k =>
        have := j.size_pos
        simp only [size, reduceCtorEq, false_iff]
        omega
    · rw [if_neg hn]
      -- parts are smaller than the whole, so the bound that is left is enough for them
      have hparts : ∀ i, i < n - 1 →
          Lists (ofSizeWithin bound i) fun k => True ∧ (k.size : Int) = i :=
        fun i hi => (ih (by omega)).congr fun k => by rw [true_and, Int.natCast_inj]
      have hpairs := Lists.ofPairs hparts (fun k _ => k.one_le_cast_size) hparts
        (fun k _ => k.one_le_cast_size) arrow_injective
      refine hpairs.congr fun k => ?_
      cases k with
      | star =>
        simp only [size, reduceCtorEq, and_false, exists_false, false_iff]
        omega
      | arrow j k =>
        have := j.size_pos
        simp only [size, arrow.injEq, true_and]
        constructor
        · rintro ⟨_, _, hsize, rfl, rfl⟩
          omega
        · intro hsize
          exact ⟨j, k, by omega, rfl, rfl⟩

/-- Every kind of a size is listed once. -/
theorem ofSize_lists (n : Nat) : Lists (ofSize n) fun k => k.size = n :=
  ofSizeWithin_lists (Nat.le_refl n)

/-- Any kind can be a part of a type. -/
theorem ofSize_parts (n : Nat) : Lists (ofSize n) fun k => True ∧ (k.size : Int) = n :=
  (ofSize_lists n).congr fun k => by rw [true_and, Int.natCast_inj]

end Kind

/-! ## Types of a grammar -/

namespace PosTy

/-- The constructors of types. -/
inductive Shape where
  | var
  | arrow
  | all
  | builtin
  | lam
  | app
deriving DecidableEq

def shape : PosTy → Shape
  | .var _ => .var
  | .arrow _ _ => .arrow
  | .all _ _ => .all
  | .builtin _ => .builtin
  | .lam _ => .lam
  | .app _ _ _ => .app

/-- The types of kind `k` that a grammar has: all types, say, or the normal ones. -/
def InGrammar (N : PosTy → Bool) (D : List Kind) (k : Kind) (t : PosTy) : Prop :=
  t.hasKind D k = true ∧ N t = true

theorem InGrammar.size_pos {N : PosTy → Bool} {D : List Kind} {k : Kind} {t : PosTy}
    (h : InGrammar N D k t) : 1 ≤ t.size :=
  size_pos_of_hasKind h.1

/-- The grammar of all types. -/
def anyType (_ : PosTy) : Bool := true

end PosTy

namespace TyEnumeration

open PosTy (InGrammar Shape anyType)

variable {N F A : PosTy → Bool} {e fs as : TyEnumeration} {n : Nat}

/-- An enumeration lists the types of a grammar, up to the size `n`. -/
def ListsUpTo (e : TyEnumeration) (N : PosTy → Bool) (n : Nat) : Prop :=
  ∀ D k m, m ≤ n → Lists (e D k m) fun t => InGrammar N D k t ∧ t.size = m

/-- An enumeration lists the types of a grammar that have the size `n` and one shape. -/
def ListsShape (e : TyEnumeration) (s : Shape) (N : PosTy → Bool) (n : Nat) : Prop :=
  ∀ D k, Lists (e D k n) fun t => t.shape = s ∧ InGrammar N D k t ∧ t.size = n

/-! ## One constructor at a time -/

theorem references_lists (hN : ∀ i, N (.var i) = true) (n : Nat) :
    references.ListsShape .var N (n + 1) := by
  intro D k
  refine (Lists.ite fun _ => .singleton (PosTy.var n)).congr fun t => ?_
  cases t with
  | var i =>
    simp only [PosTy.shape, InGrammar, PosTy.hasKind, PosTy.size, hN, beq_iff_eq, true_and,
      and_true, Scope.find?_eq_some_iff, PosTy.var.injEq]
    constructor
    · rintro ⟨h, rfl⟩
      exact ⟨⟨Int.natCast_nonneg n, h⟩, rfl⟩
    · rintro ⟨⟨hi, h⟩, hsize⟩
      obtain rfl : i = n := by omega
      exact ⟨h, rfl⟩
  | _ => simp [PosTy.shape]

theorem builtins_lists (hN : ∀ b, N (.builtin b) = true) (n : Nat) :
    builtins.ListsShape .builtin N (n + 1) := by
  intro D k
  have hall : Lists Builtin.all fun _ => True := ⟨by decide, fun b => by simp [b.mem_all]⟩
  refine (Lists.ite fun _ => hall.map fun _ _ h => PosTy.builtin.inj h).congr fun t => ?_
  cases t with
  | builtin b =>
    simp only [PosTy.shape, InGrammar, PosTy.hasKind, PosTy.size, hN, beq_iff_eq, true_and,
      and_true, PosTy.builtin.injEq, exists_eq]
    exact and_congr_right fun _ => by omega
  | _ => simp [PosTy.shape]

theorem functions_lists (he : e.ListsUpTo N n) {N' : PosTy → Bool}
    (hN : ∀ s t, N' (.arrow s t) = (N s && N t)) :
    (functions e).ListsShape .arrow N' (n + 1) := by
  intro D k
  have hparts : ∀ i, i < n → Lists (e D .star i) fun t => InGrammar N D .star t ∧ t.size = i :=
    fun i hi => he D .star i (by omega)
  have hpairs := Lists.ofPairs hparts (fun _ ht => ht.size_pos) hparts (fun _ ht => ht.size_pos)
    fun _ _ _ _ h => PosTy.arrow.inj h
  refine (Lists.ite fun _ => hpairs).congr fun t => ?_
  cases t with
  | arrow s t =>
    simp only [PosTy.shape, InGrammar, PosTy.hasKind, PosTy.size, hN, beq_iff_eq, true_and,
      PosTy.arrow.injEq, Bool.and_eq_true]
    constructor
    · rintro ⟨hk, _, _, hs, ht, hsize, rfl, rfl⟩
      exact ⟨⟨⟨⟨hk, hs.1⟩, ht.1⟩, hs.2, ht.2⟩, by omega⟩
    · rintro ⟨⟨⟨⟨hk, hs⟩, ht⟩, hNs, hNt⟩, hsize⟩
      exact ⟨hk, s, t, ⟨hs, hNs⟩, ⟨ht, hNt⟩, by omega, rfl, rfl⟩
  | _ => simp [PosTy.shape]

theorem foralls_lists (he : e.ListsUpTo N n) {N' : PosTy → Bool}
    (hN : ∀ j t, N' (.all j t) = N t) : (foralls e).ListsShape .all N' (n + 1) := by
  intro D k
  have hbody : ∀ j (rest : Nat), True → (j.size : Int) + rest = n →
      Lists ((e (j :: D) .star rest).map (PosTy.all j))
        fun t => ∃ s, (InGrammar N (j :: D) .star s ∧ s.size = rest) ∧ PosTy.all j s = t := by
    intro j rest _ hn
    exact (he (j :: D) .star rest (by omega)).map fun _ _ h => (PosTy.all.inj h).2
  have hkinds : ∀ i, i + 1 ≤ n → Lists (Kind.ofSize i) fun k => True ∧ (k.size : Int) = i :=
    fun i _ => Kind.ofSize_parts i
  have hparts := Lists.ofParts Nat.one_pos hkinds (fun k _ => k.one_le_cast_size) hbody <| by
    -- the type names the kind that it binds, so it is listed for no other kind
    rintro j j' rest rest' t ⟨s, _, rfl⟩ ⟨s', _, h⟩
    exact (PosTy.all.inj h).1.symm
  refine (Lists.ite fun _ => hparts).congr fun t => ?_
  cases t with
  | all j t =>
    simp only [PosTy.shape, InGrammar, PosTy.hasKind, PosTy.size, hN, beq_iff_eq, true_and,
      PosTy.all.injEq, Bool.and_eq_true]
    constructor
    · rintro ⟨hk, _, rest, _, hn, _, ⟨ht, hsize⟩, rfl, rfl⟩
      exact ⟨⟨⟨hk, ht.1⟩, ht.2⟩, by omega⟩
    · rintro ⟨⟨⟨hk, ht⟩, hNt⟩, hsize⟩
      have := PosTy.size_pos_of_hasKind ht
      exact ⟨hk, j, t.size.toNat, by omega, by omega, t, ⟨⟨ht, hNt⟩, by omega⟩, rfl, rfl⟩
  | _ => simp [PosTy.shape]

theorem lambdas_lists (he : e.ListsUpTo N n) {N' : PosTy → Bool} (hN : ∀ t, N' (.lam t) = N t) :
    (lambdas e).ListsShape .lam N' (n + 1) := by
  intro D k
  cases k with
  | star =>
    refine .nil fun t ht => ?_
    cases t with
    | lam t => cases ht.2.1.1
    | _ => cases ht.1
  | arrow j k =>
    have hbody := he (j :: D) k n (Nat.le_refl n)
    refine (hbody.map fun _ _ h => PosTy.lam.inj h).congr fun t => ?_
    cases t with
    | lam t =>
      simp only [PosTy.shape, InGrammar, PosTy.hasKind, PosTy.size, hN, true_and, PosTy.lam.injEq,
        exists_eq_right]
      exact and_congr_right fun _ => by omega
    | _ => simp [PosTy.shape]

theorem applications_lists (hf : fs.ListsUpTo F n) (ha : as.ListsUpTo A n) {N' : PosTy → Bool}
    (hN : ∀ f t j, N' (.app f t j) = (F f && A t)) :
    (applications fs as).ListsShape .app N' (n + 1) := by
  intro D k
  have hpair : ∀ j (rest : Nat), True → (j.size : Int) + rest = n →
      Lists ((splits 1 rest).flatMap fun p =>
          cross (fun f t => PosTy.app f t j) (fs D (.arrow j k) p.1) fun _ => as D j p.2)
        fun t => ∃ f s, InGrammar F D (.arrow j k) f ∧ InGrammar A D j s ∧
          f.size + s.size = rest ∧ PosTy.app f s j = t := by
    intro j rest _ hn
    exact Lists.ofPairs (fun i hi => hf D _ i (by omega)) (fun _ hf => hf.size_pos)
      (fun i hi => ha D _ i (by omega)) (fun _ ht => ht.size_pos)
      fun _ _ _ _ h => ⟨(PosTy.app.inj h).1, (PosTy.app.inj h).2.1⟩
  have hkinds : ∀ i, i + 2 ≤ n → Lists (Kind.ofSize i) fun k => True ∧ (k.size : Int) = i :=
    fun i _ => Kind.ofSize_parts i
  have hparts := Lists.ofParts Nat.two_pos hkinds (fun k _ => k.one_le_cast_size) hpair <| by
    rintro j j' rest rest' t ⟨f, s, _, _, _, rfl⟩ ⟨f', s', _, _, _, h⟩
    exact (PosTy.app.inj h).2.2.symm
  refine hparts.congr fun t => ?_
  cases t with
  | app f t j =>
    simp only [PosTy.shape, InGrammar, PosTy.hasKind, PosTy.size, hN, true_and, PosTy.app.injEq,
      Bool.and_eq_true]
    constructor
    · rintro ⟨_, rest, _, hn, _, _, hf, ht, hsize, rfl, rfl, rfl⟩
      exact ⟨⟨⟨hf.1, ht.1⟩, hf.2, ht.2⟩, by omega⟩
    · rintro ⟨⟨⟨hf, ht⟩, hFf, hAt⟩, hsize⟩
      have := PosTy.size_pos_of_hasKind hf
      have := PosTy.size_pos_of_hasKind ht
      exact ⟨j, (f.size + t.size).toNat, by omega, by omega, f, t, ⟨hf, hFf⟩, ⟨ht, hAt⟩,
        by omega, rfl, rfl, rfl⟩
  | _ => simp [PosTy.shape]

/-! ## All constructors -/

/-- The constructors of a grammar together list the types of the grammar. -/
theorem constructors_list {cs : List TyEnumeration} {shapes : List Shape}
    (h : List.Forall₂ (fun c s => c.ListsShape s N n) cs shapes) (hshapes : shapes.Nodup)
    (hN : ∀ t, N t = true → t.shape ∈ shapes) (D : List Kind) (k : Kind) :
    Lists (cs.flatMap fun c => c D k n) fun t => InGrammar N D k t ∧ t.size = n := by
  have hlists := Lists.ofShapes (h.imp fun _ _ hc => hc D k) hshapes
  exact hlists.congr fun t => and_iff_right_of_imp fun ht => hN t ht.1.2

theorem plain_lists (he : e.ListsUpTo anyType n) (D : List Kind) (k : Kind) :
    Lists ((plain e).flatMap fun c => c D k (n + 1))
      fun t => InGrammar anyType D k t ∧ t.size = (n + 1 : Nat) := by
  have h : List.Forall₂ (fun c s => ListsShape c s anyType (n + 1)) (plain e)
      [.var, .builtin, .arrow, .all, .lam, .app] :=
    .cons (references_lists (fun _ => rfl) n) <| .cons (builtins_lists (fun _ => rfl) n) <|
    .cons (functions_lists he fun _ _ => rfl) <| .cons (foralls_lists he fun _ _ => rfl) <|
    .cons (lambdas_lists he fun _ => rfl) <| .cons (applications_lists he he fun _ _ _ => rfl) .nil
  exact constructors_list h (by decide) (fun t _ => by cases t <;> simp [PosTy.shape]) D k

theorem normal_lists (hn : e.ListsUpTo PosTy.isNormal n) (hs : fs.ListsUpTo PosTy.isNeutral n)
    (D : List Kind) (k : Kind) :
    Lists ((normal e fs).flatMap fun c => c D k (n + 1))
      fun t => InGrammar PosTy.isNormal D k t ∧ t.size = (n + 1 : Nat) := by
  have h : List.Forall₂ (fun c s => ListsShape c s PosTy.isNormal (n + 1)) (normal e fs)
      [.var, .builtin, .arrow, .all, .lam, .app] :=
    .cons (references_lists (fun _ => rfl) n) <| .cons (builtins_lists (fun _ => rfl) n) <|
    .cons (functions_lists hn fun _ _ => rfl) <| .cons (foralls_lists hn fun _ _ => rfl) <|
    .cons (lambdas_lists hn fun _ => rfl) <| .cons (applications_lists hs hn fun _ _ _ => rfl) .nil
  exact constructors_list h (by decide) (fun t _ => by cases t <;> simp [PosTy.shape]) D k

theorem neutral_lists (hn : e.ListsUpTo PosTy.isNormal n) (hs : fs.ListsUpTo PosTy.isNeutral n)
    (D : List Kind) (k : Kind) :
    Lists ((neutral e fs).flatMap fun c => c D k (n + 1))
      fun t => InGrammar PosTy.isNeutral D k t ∧ t.size = (n + 1 : Nat) := by
  have h : List.Forall₂ (fun c s => ListsShape c s PosTy.isNeutral (n + 1)) (neutral e fs)
      [.var, .app] :=
    .cons (references_lists (fun _ => rfl) n) <|
    .cons (applications_lists hs hn fun _ _ _ => rfl) .nil
  refine constructors_list h (by decide) (fun t ht => ?_) D k
  cases t with
  | var | app => simp [PosTy.shape]
  | _ => cases ht

/-! ## Any bound on the nesting -/

theorem ListsUpTo.mono {m : Nat} (h : e.ListsUpTo N n) (hm : m ≤ n) : e.ListsUpTo N m :=
  fun D k i hi => h D k i (Nat.le_trans hi hm)

theorem listsUpTo_zero (e : TyEnumeration) (he : ∀ D k, e D k 0 = []) : e.ListsUpTo N 0 := by
  intro D k m hm
  obtain rfl : m = 0 := by omega
  rw [he]
  refine .nil fun t ht => ?_
  have := ht.1.size_pos
  omega

/-- What lists every size that is not zero lists every size. -/
theorem ofConstructors_lists {cs : List TyEnumeration}
    (h : ∀ m ≤ n, ∀ D k, Lists (cs.flatMap fun c => c D k (m + 1))
      fun t => InGrammar N D k t ∧ t.size = (m + 1 : Nat)) :
    (ofConstructors cs).ListsUpTo N (n + 1) := by
  intro D k m hm
  cases m with
  | zero => exact listsUpTo_zero (ofConstructors cs) (fun _ _ => rfl) D k 0 (Nat.le_refl 0)
  | succ m => exact h m (by omega) D k

end TyEnumeration

namespace PosTy

open TyEnumeration

theorem ofSizeWithin_lists (bound : Nat) : (ofSizeWithin bound).ListsUpTo anyType bound := by
  induction bound with
  | zero => exact listsUpTo_zero _ fun _ _ => rfl
  | succ bound ih => exact ofConstructors_lists fun m hm => plain_lists (ih.mono hm)

theorem ofSize_lists (D : List Kind) (k : Kind) (n : Nat) :
    Lists (ofSize D k n) fun t => InGrammar anyType D k t ∧ t.size = n :=
  ofSizeWithin_lists n D k n (Nat.le_refl n)

theorem normalOfSizeWithin_lists (bound : Nat) :
    (normalOfSizeWithin bound).ListsUpTo isNormal bound ∧
      (neutralOfSizeWithin bound).ListsUpTo isNeutral bound := by
  induction bound with
  | zero =>
    exact ⟨listsUpTo_zero _ fun _ _ => by rw [normalOfSizeWithin],
      listsUpTo_zero _ fun _ _ => by rw [neutralOfSizeWithin]⟩
  | succ bound ih =>
    rw [normalOfSizeWithin, neutralOfSizeWithin]
    exact ⟨ofConstructors_lists fun m hm => normal_lists (ih.1.mono hm) (ih.2.mono hm),
      ofConstructors_lists fun m hm => neutral_lists (ih.1.mono hm) (ih.2.mono hm)⟩

theorem normalOfSize_lists (D : List Kind) (k : Kind) (n : Nat) :
    Lists (normalOfSize D k n) fun t => InGrammar isNormal D k t ∧ t.size = n :=
  (normalOfSizeWithin_lists n).1 D k n (Nat.le_refl n)

theorem neutralOfSize_lists (D : List Kind) (k : Kind) (n : Nat) :
    Lists (neutralOfSize D k n) fun t => InGrammar isNeutral D k t ∧ t.size = n :=
  (normalOfSizeWithin_lists n).2 D k n (Nat.le_refl n)

/-- The types that are listed for a kind and a size are the types of this kind and size,
each of them once; so are the kinds that binders and applications take. -/
theorem every_type_is_listed_once (D : List Kind) (k : Kind) (n : Int) :
    (ofSize D k n.toNat).Nodup ∧
      (∀ t, t ∈ ofSize D k n.toNat ↔ t.hasKind D k = true ∧ t.size = n) ∧
      (Kind.ofSize n.toNat).Nodup ∧ ∀ j : Kind, j ∈ Kind.ofSize n.toNat ↔ (j.size : Int) = n := by
  have htypes := ofSize_lists D k n.toNat
  have hkinds := Kind.ofSize_lists n.toNat
  refine ⟨htypes.nodup, fun t => ?_, hkinds.nodup, fun j => ?_⟩
  · rw [htypes.mem_iff, InGrammar, anyType, and_iff_left rfl]
    refine and_congr_right fun ht => ?_
    have := size_pos_of_hasKind ht
    omega
  · rw [hkinds.mem_iff]
    have := j.size_pos
    omega

end PosTy

end FomegaLab
