-- The laws of substitution in named types and terms. They hold up to bound names and
-- from every supply, because the nameless form of what comes out of a substitution
-- depends on the nameless forms of what goes in and on nothing else.
import FomegaLab.Proofs.Named.TermSubst

namespace FomegaLab

/-! ## Types -/

namespace Ty

variable {s r q : Ty} {x y : TyName} {n p : Int}

theorem nameless_subst (hs : s.Below n) (hr : r.Below n) (hx : x.unique < n) (hp : n ≤ p) :
    (s.subst x r p).1.nameless = s.nameless.subst (.single x r.nameless) :=
  (subst_spec (hs.mono hp) (Int.lt_of_lt_of_le hx hp) (hr.mono hp)).nameless_eq

theorem mem_free_subst (hs : s.Below n) (hr : r.Below n) (hx : x.unique < n) (hp : n ≤ p)
    (a : TyName) :
    a ∈ (s.subst x r p).1.free ↔ a ∈ s.free ∧ a ≠ x ∨ x ∈ s.free ∧ a ∈ r.free := by
  rw [mem_free, nameless_subst hs hr hx hp, NamelessTy.occurs_subst_single]
  simp only [mem_free, ne_eq, Ref.free.injEq]

theorem subst_alphaEq_self (hs : s.Below n) (hr : r.Below n) (hx : x.unique < n) (hp : n ≤ p)
    (h : x ∉ s.free) : (s.subst x r p).1.alphaEq s := by
  rw [mem_free] at h
  rw [alphaEq_iff, nameless_subst hs hr hx hp, NamelessTy.subst_single_of_not_occurs h]

theorem nameless_subst_subst (hs : s.Below n) (hr : r.Below n) (hq : q.Below n)
    (hx : x.unique < n) (hy : y.unique < n) (hp : n ≤ p) :
    ((do let t ← s.subst x r; t.subst y q : Fresh Ty) p).1.nameless =
      (s.nameless.subst (.single x r.nameless)).subst (.single y q.nameless) := by
  have h := subst_spec (hs.mono hp) (Int.lt_of_lt_of_le hx hp) (hr.mono hp)
  have hle := Int.le_trans hp h.le
  rw [Fresh.bind_apply, nameless_subst h.below (hq.mono hle) (Int.lt_of_lt_of_le hy hle)
    (Int.le_refl _), h.nameless_eq]

/-- The second substitution made first, and then in what the other one puts in. -/
theorem nameless_subst_subst_subst (hs : s.Below n) (hr : r.Below n) (hq : q.Below n)
    (hx : x.unique < n) (hy : y.unique < n) (hp : n ≤ p) :
    ((do let t ← s.subst y q; let u ← r.subst y q; t.subst x u : Fresh Ty) p).1.nameless =
      (s.nameless.subst (.single y q.nameless)).subst
        (.single x (r.nameless.subst (.single y q.nameless))) := by
  have hs' := subst_spec (hs.mono hp) (Int.lt_of_lt_of_le hy hp) (hq.mono hp)
  have hle := Int.le_trans hp hs'.le
  have hr' := subst_spec (hr.mono hle) (Int.lt_of_lt_of_le hy hle) (hq.mono hle)
  have hx' := Int.lt_of_lt_of_le hx (Int.le_trans hle hr'.le)
  rw [Fresh.bind_apply, Fresh.bind_apply,
    nameless_subst (hs'.below.mono hr'.le) hr'.below hx' (Int.le_refl _), hr'.nameless_eq,
    hs'.nameless_eq]

/-- Substitution is well defined on types up to bound names. It replaces the free name
that it is for, brings in the free names of the replacement if there was something to
replace, and may change places with another substitution. -/
theorem substitution_obeys_its_laws_up_to_bound_names {s s' r r' q : Ty} {x y : TyName} {n : Int}
    (hs : s.Below n) (hs' : s'.Below n) (hr : r.Below n) (hr' : r'.Below n) (hq : q.Below n)
    (hx : x.unique < n) (hy : y.unique < n) :
    (s.alphaEq s' → r.alphaEq r' → ∀ p ≥ n, ∀ p' ≥ n,
      (s.subst x r p).1.alphaEq (s'.subst x r' p').1) ∧
    (∀ p ≥ n, ∀ a,
      a ∈ (s.subst x r p).1.free ↔ a ∈ s.free ∧ a ≠ x ∨ x ∈ s.free ∧ a ∈ r.free) ∧
    (x ∉ s.free → ∀ p ≥ n, (s.subst x r p).1.alphaEq s) ∧
    (x ≠ y → x ∉ q.free → ∀ p ≥ n, ∀ p' ≥ n,
      ((do let t ← s.subst x r; t.subst y q : Fresh Ty) p).1.alphaEq
        ((do let t ← s.subst y q; let u ← r.subst y q; t.subst x u : Fresh Ty) p').1) := by
  refine ⟨?_, fun p hp => mem_free_subst hs hr hx hp,
    fun h p hp => subst_alphaEq_self hs hr hx hp h, ?_⟩
  · intro hss' hrr' p hp p' hp'
    rw [alphaEq_iff] at hss' hrr' ⊢
    rw [nameless_subst hs hr hx hp, nameless_subst hs' hr' hx hp', hss', hrr']
  · intro hxy hxq p hp p' hp'
    rw [mem_free] at hxq
    rw [alphaEq_iff, nameless_subst_subst hs hr hq hx hy hp,
      nameless_subst_subst_subst hs hr hq hx hy hp',
      NamelessTy.subst_single_subst_single hxy hxq]

/-- Each replacement has a free name that a binder of the type takes. -/
theorem substitution_obeys_its_laws_up_to_bound_names_under_capturing_binders :
    let x : TyName := ⟨"x", 0⟩
    let b : TyName := ⟨"b", 1⟩
    let c : TyName := ⟨"c", 2⟩
    let s : Ty := .all b .star (.arrow (.var x) (.lam c .star (.arrow (.var b) (.var c))))
    let s' : Ty := .all c .star (.arrow (.var x) (.lam b .star (.arrow (.var c) (.var b))))
    let r : Ty := .arrow (.var b) (.all c .star (.var c))
    let r' : Ty := .arrow (.var b) (.all x .star (.var x))
    let q : Ty := .var c
    s.Below 3 ∧ s'.Below 3 ∧ r.Below 3 ∧ r'.Below 3 ∧ q.Below 3 ∧
      (s.alphaEq s' ∧ r.alphaEq r' ∧ (s.subst x r 3).1.alphaEq (s'.subst x r' 3).1) ∧
      (x ∈ s.free ∧ b ∉ s.free ∧ b ∈ r.free ∧ b ∈ (s.subst x r 3).1.free) ∧
      (b ∉ s.free ∧ (s.subst b q 3).1.alphaEq s) ∧
      x ≠ b ∧ x ∉ q.free ∧
        ((do let t ← s.subst x r; t.subst b q : Fresh Ty) 3).1.alphaEq
          ((do let t ← s.subst b q; let u ← r.subst b q; t.subst x u : Fresh Ty) 3).1 := by
  intro x b c s s' r r' q
  have hs : s.Below 3 := by simp [s, x, b, c, Below]
  have hs' : s'.Below 3 := by simp [s', x, b, c, Below]
  have hr : r.Below 3 := by simp [r, b, c, Below]
  have hr' : r'.Below 3 := by simp [r', x, b, Below]
  have hq : q.Below 3 := by simp [q, c, Below]
  have hx : x.unique < 3 := by decide
  have hb : b.unique < 3 := by decide
  have hss' : s.alphaEq s' := by decide
  have hrr' : r.alphaEq r' := by decide
  have hxb : x ≠ b := by decide
  have hxq : x ∉ q.free := by decide
  have hbs : b ∉ s.free := by decide
  have hxs : x ∈ s.free := by decide
  have hbr : b ∈ r.free := by decide
  have hle : (3 : Int) ≥ 3 := Int.le_refl 3
  obtain ⟨heq, hfree, _, hcomm⟩ :=
    substitution_obeys_its_laws_up_to_bound_names hs hs' hr hr' hq hx hb
  have hself := (substitution_obeys_its_laws_up_to_bound_names hs hs' hq hq hq hb hb).2.2.1
  exact ⟨hs, hs', hr, hr', hq, ⟨hss', hrr', heq hss' hrr' 3 hle 3 hle⟩,
    ⟨hxs, hbs, hbr, (hfree 3 hle b).mpr (Or.inr ⟨hxs, hbr⟩)⟩, ⟨hbs, hself hbs 3 hle⟩, hxb, hxq,
    hcomm hxb hxq 3 hle 3 hle⟩

/-- The laws ask for more than types to start from that lie below the supply. A renamed binder
gets the next name, and this may be the name to replace, or it may be free in the type that is
put in second, or it may be the name that this type is for. -/
theorem the_next_name_breaks_the_laws :
    let x : TyName := ⟨"x", 0⟩
    let y : TyName := ⟨"y", 1⟩
    let b : TyName := ⟨"b", 2⟩
    let next : TyName := ⟨"b", 3⟩
    let s : Ty := .all b .star (.var b)
    let u : Ty := .all b .star (.var y)
    let unit : Ty := .builtin .unit
    let q : Ty := .arrow (.var b) (.var next)
    (s.Below 3 ∧ u.Below 3 ∧ (Ty.var b).Below 3) ∧
      (next ∉ s.free ∧ (s.subst next (.var b) 3).1 = .all next .star (.var b) ∧
        b ∈ (s.subst next (.var b) 3).1.free ∧ (s.subst next (.var b) 3).1.alphaEq s = false ∧
        (s.subst next (.var b) 3).1.alphaEq (s.subst next (.var b) 4).1 = false) ∧
      (x ≠ y ∧ x ∉ q.free ∧
        ((do let t ← u.subst x unit; t.subst y q : Fresh Ty) 3).1.alphaEq
          ((do let t ← u.subst y q; let v ← unit.subst y q; t.subst x v : Fresh Ty) 4).1 =
            false) ∧
      x ≠ next ∧ x ∉ (Ty.var b).free ∧
        ((do let t ← s.subst x unit; t.subst next (.var b) : Fresh Ty) 3).1.alphaEq
          ((do let t ← s.subst next (.var b); let v ← unit.subst next (.var b); t.subst x v :
            Fresh Ty) 4).1 = false := by
  intro x y b next s u unit q
  have hs : s.Below 3 := by simp [s, b, Below]
  have hu : u.Below 3 := by simp [u, b, y, Below]
  have hb : (Ty.var b).Below 3 := by simp [b, Below]
  exact ⟨⟨hs, hu, hb⟩, by decide, by decide, by decide⟩

end Ty

/-! ## Terms -/

namespace Term

variable {t r : Term} {s : Ty} {x : Name} {a : TyName} {n p : Int}

theorem nameless_subst (ht : t.Below n) (hr : r.Below n) (hx : x.unique < n) (hp : n ≤ p) :
    (t.subst x r p).1.nameless = t.nameless.subst .var (.single x r.nameless) :=
  (subst_spec (ht.mono hp) (Int.lt_of_lt_of_le hx hp) (hr.mono hp)).nameless_eq

theorem nameless_substType (ht : t.Below n) (hs : s.Below n) (ha : a.unique < n) (hp : n ≤ p) :
    (t.substType a s p).1.nameless = t.nameless.subst (.single a s.nameless) .var :=
  (substType_spec (ht.mono hp) (Int.lt_of_lt_of_le ha hp) (hs.mono hp)).nameless_eq

theorem mem_free_subst (ht : t.Below n) (hr : r.Below n) (hx : x.unique < n) (hp : n ≤ p)
    (y : Name) :
    y ∈ (t.subst x r p).1.free ↔ y ∈ t.free ∧ y ≠ x ∨ x ∈ t.free ∧ y ∈ r.free := by
  rw [mem_free, nameless_subst ht hr hx hp, NamelessTerm.occurs_subst_single]
  simp only [mem_free, ne_eq, Ref.free.injEq]

theorem mem_freeTypes_subst (ht : t.Below n) (hr : r.Below n) (hx : x.unique < n) (hp : n ≤ p)
    (b : TyName) :
    b ∈ (t.subst x r p).1.freeTypes ↔ b ∈ t.freeTypes ∨ x ∈ t.free ∧ b ∈ r.freeTypes := by
  rw [mem_freeTypes, nameless_subst ht hr hx hp, NamelessTerm.occursTy_subst_single]
  simp only [mem_free, mem_freeTypes]

theorem mem_freeTypes_substType (ht : t.Below n) (hs : s.Below n) (ha : a.unique < n)
    (hp : n ≤ p) (b : TyName) :
    b ∈ (t.substType a s p).1.freeTypes ↔
      b ∈ t.freeTypes ∧ b ≠ a ∨ a ∈ t.freeTypes ∧ b ∈ s.free := by
  rw [mem_freeTypes, nameless_substType ht hs ha hp, NamelessTerm.occursTy_substTy_single]
  simp only [mem_freeTypes, Ty.mem_free, ne_eq, Ref.free.injEq]

/-- Erasure forgets the types and keeps the free variables. -/
theorem free_substType (t : Term) (a : TyName) (s : Ty) (p : Int) :
    (t.substType a s p).1.free = t.free := by
  rw [← free_erase, erase_substType, free_erase]

/-- Substitution of terms and of types in terms is well defined up to bound names of both
sorts. Neither captures a name: what is free afterwards is what was free and was not
replaced, with what is free in the replacement if there was something to replace. -/
theorem substitution_captures_names_of_neither_sort {t t' r r' : Term} {s s' : Ty} {x : Name}
    {a : TyName} {n : Int} (ht : t.Below n) (ht' : t'.Below n) (hr : r.Below n)
    (hr' : r'.Below n) :
    (x.unique < n →
      (t.alphaEq t' → r.alphaEq r' → ∀ p ≥ n, ∀ p' ≥ n,
        (t.subst x r p).1.alphaEq (t'.subst x r' p').1) ∧
      ∀ p ≥ n,
        (∀ y, y ∈ (t.subst x r p).1.free ↔ y ∈ t.free ∧ y ≠ x ∨ x ∈ t.free ∧ y ∈ r.free) ∧
        ∀ b, b ∈ (t.subst x r p).1.freeTypes ↔
          b ∈ t.freeTypes ∨ x ∈ t.free ∧ b ∈ r.freeTypes) ∧
    (a.unique < n → s.Below n →
      (t.alphaEq t' → s'.Below n → s.alphaEq s' → ∀ p ≥ n, ∀ p' ≥ n,
        (t.substType a s p).1.alphaEq (t'.substType a s' p').1) ∧
      ∀ p ≥ n, ∀ b, b ∈ (t.substType a s p).1.freeTypes ↔
        b ∈ t.freeTypes ∧ b ≠ a ∨ a ∈ t.freeTypes ∧ b ∈ s.free) ∧
    ∀ p, (t.substType a s p).1.free = t.free := by
  refine ⟨fun hx => ⟨?_, fun p hp => ⟨mem_free_subst ht hr hx hp, mem_freeTypes_subst ht hr hx hp⟩⟩,
    fun ha hs => ⟨?_, fun p hp => mem_freeTypes_substType ht hs ha hp⟩, free_substType t a s⟩
  · intro htt' hrr' p hp p' hp'
    rw [alphaEq_iff] at htt' hrr' ⊢
    rw [nameless_subst ht hr hx hp, nameless_subst ht' hr' hx hp', htt', hrr']
  · intro htt' hs' hss' p hp p' hp'
    rw [alphaEq_iff] at htt' ⊢
    rw [Ty.alphaEq_iff] at hss'
    rw [nameless_substType ht hs ha hp, nameless_substType ht' hs' ha hp', htt', hss']

/-- Binders of both sorts stand over the variable and take names that are free in what is
put in, so both get new names. -/
theorem substitution_captures_names_of_neither_sort_under_capturing_binders :
    let a : TyName := ⟨"a", 0⟩
    let b : TyName := ⟨"b", 1⟩
    let c : TyName := ⟨"c", 2⟩
    let x : Name := ⟨"x", 3⟩
    let y : Name := ⟨"y", 4⟩
    let z : Name := ⟨"z", 5⟩
    let t : Term := .tyLam b .star (.lam y (.arrow (.var a) (.var b)) (.app (.var x) (.var y)))
    let t' : Term := .tyLam c .star (.lam z (.arrow (.var a) (.var c)) (.app (.var x) (.var z)))
    let r : Term := .inst (.var y) (.all c .star (.arrow (.var c) (.var b)))
    let r' : Term := .inst (.var y) (.all a .star (.arrow (.var a) (.var b)))
    let s : Ty := .arrow (.var b) (.lam c .star (.var c))
    let s' : Ty := .arrow (.var b) (.lam a .star (.var a))
    t.Below 6 ∧ t'.Below 6 ∧ r.Below 6 ∧ r'.Below 6 ∧ s.Below 6 ∧ s'.Below 6 ∧
      (t.alphaEq t' ∧ r.alphaEq r' ∧ s.alphaEq s') ∧
      (t.subst x r 6).1.alphaEq (t'.subst x r' 6).1 ∧
      (t.substType a s 6).1.alphaEq (t'.substType a s' 6).1 ∧
      (y ∈ (t.subst x r 6).1.free ∧ b ∈ (t.subst x r 6).1.freeTypes) ∧
      (t.substType a s 6).1.free = [x] ∧ b ∈ (t.substType a s 6).1.freeTypes := by
  intro a b c x y z t t' r r' s s'
  have ht : t.Below 6 := by simp [t, a, b, x, y, Below, Ty.Below]
  have ht' : t'.Below 6 := by simp [t', a, c, x, z, Below, Ty.Below]
  have hr : r.Below 6 := by simp [r, b, c, y, Below, Ty.Below]
  have hr' : r'.Below 6 := by simp [r', a, b, y, Below, Ty.Below]
  have hs : s.Below 6 := by simp [s, b, c, Ty.Below]
  have hs' : s'.Below 6 := by simp [s', a, b, Ty.Below]
  have hx : x.unique < 6 := by decide
  have ha : a.unique < 6 := by decide
  have htt' : t.alphaEq t' := by decide
  have hrr' : r.alphaEq r' := by decide
  have hss' : s.alphaEq s' := by decide
  have hle : (6 : Int) ≥ 6 := Int.le_refl 6
  obtain ⟨hterms, htypes, hkept⟩ := substitution_captures_names_of_neither_sort ht ht' hr hr'
  obtain ⟨heq, hfree⟩ := hterms hx
  obtain ⟨heqTy, hfreeTy⟩ := htypes ha hs
  have hy := ((hfree 6 hle).1 y).mpr (Or.inr (by decide))
  have hb := ((hfree 6 hle).2 b).mpr (Or.inr (by decide))
  have hb' := (hfreeTy 6 hle b).mpr (Or.inr (by decide))
  exact ⟨ht, ht', hr, hr', hs, hs', ⟨htt', hrr', hss'⟩, heq htt' hrr' 6 hle 6 hle,
    heqTy htt' hs' hss' 6 hle 6 hle, ⟨hy, hb⟩, hkept 6, hb'⟩

/-- It is not enough that the terms lie below the supply. A renamed binder gets the next name,
and this captures it if it is free in the type that is put in. If it is the name to replace,
of a type or of a term, then the occurrences of the binder are replaced. -/
theorem the_next_name_is_captured :
    let a : TyName := ⟨"a", 0⟩
    let b : TyName := ⟨"b", 1⟩
    let y : Name := ⟨"y", 2⟩
    let nextTy : TyName := ⟨"b", 3⟩
    let next : Name := ⟨"y", 3⟩
    let t : Term := .tyLam b .star (.error (.arrow (.var a) (.var b)))
    let s : Ty := .arrow (.var b) (.var nextTy)
    let u : Term := .tyLam b .star (.error (.var b))
    let v : Term := .lam y (.builtin .unit) (.var y)
    (t.Below 3 ∧ u.Below 3 ∧ v.Below 3 ∧ (Term.var y).Below 3) ∧
      (a ∈ t.freeTypes ∧ nextTy ∈ s.free ∧ nextTy ∉ (t.substType a s 3).1.freeTypes ∧
        (t.substType a s 3).1.alphaEq (t.substType a s 4).1 = false) ∧
      (nextTy ∉ u.freeTypes ∧ b ∉ u.freeTypes ∧
        b ∈ (u.substType nextTy (.var b) 3).1.freeTypes ∧
        (u.substType nextTy (.var b) 3).1.alphaEq (u.substType nextTy (.var b) 4).1 = false) ∧
      next ∉ v.free ∧ y ∉ v.free ∧ y ∈ (v.subst next (.var y) 3).1.free ∧
        (v.subst next (.var y) 3).1.alphaEq (v.subst next (.var y) 4).1 = false := by
  intro a b y nextTy next t s u v
  have ht : t.Below 3 := by simp [t, a, b, Below, Ty.Below]
  have hu : u.Below 3 := by simp [u, b, Below, Ty.Below]
  have hv : v.Below 3 := by simp [v, y, Below, Ty.Below]
  have hy : (Term.var y).Below 3 := by simp [y, Below]
  exact ⟨⟨ht, hu, hv, hy⟩, by decide, by decide, by decide⟩

end Term

end FomegaLab
