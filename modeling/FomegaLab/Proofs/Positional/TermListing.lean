-- What the enumeration of terms lists: each canonical term of a type and a size once, as
-- far as the fuel can tell. The type and the types in scope have to be normal, since the
-- enumeration compares them as they are.
import FomegaLab.Positional.Enumerate
import FomegaLab.Proofs.Positional.Membership
import FomegaLab.Proofs.Positional.TypeListing

namespace FomegaLab

theorem PosTy.inGrammar_isNormal {D : List Kind} {k : Kind} {t : PosTy} :
    InGrammar isNormal D k t ↔ t.hasKind D k = true ∧ t.step = none :=
  and_congr_right fun hk => ⟨step_eq_none_of_isNormal, isNormal_of_step_eq_none hk⟩

/-! ## Canonical members of a normal type -/

namespace PosTerm

variable {fuel : Nat} {D : List Kind} {G : List PosTy} {τ : PosTy}

/-- The canonical terms of a type, as far as the fuel can tell. -/
def IsMember (fuel : Nat) (D : List Kind) (G : List PosTy) (τ : PosTy) (t : PosTerm) : Prop :=
  t.hasType fuel D G τ = true ∧ t.IsCanonical

theorem IsMember.size_pos {t : PosTerm} (h : t.IsMember fuel D G τ) : 1 ≤ t.size :=
  size_pos_of_hasType h.1

section

variable (hτ : τ.step = none)

include hτ

theorem isMember_var (hG : ∀ s ∈ G, s.step = none) {i : Int} :
    (var i).IsMember fuel D G τ ↔ Scope.find? G i = some τ := by
  rw [IsMember, and_iff_left (isCanonical_var i), hasType_var, PosTy.normalize_eq_self fuel hτ]
  have hbound : ∀ {s}, Scope.find? G i = some s → s.normalize fuel = some s := by
    intro s hs
    have hmem := List.mem_of_getElem? (Scope.find?_eq_some_iff.mp hs).2
    exact PosTy.normalize_eq_self fuel (hG s hmem)
  constructor
  · rintro ⟨τ', s, h, hs, hn⟩
    cases h
    rw [hbound hs] at hn
    cases hn
    exact hs
  · intro h
    exact ⟨τ, τ, rfl, h, hbound h⟩

theorem isMember_const {l : Literal} :
    (const l).IsMember fuel D G τ ↔ τ = .builtin l.builtin ∧ l.isCanonical = true := by
  rw [IsMember, hasType_const, PosTy.normalize_eq_self fuel hτ, Option.some.injEq,
    isCanonical_const]

theorem isMember_error : (error).IsMember fuel D G τ := by
  refine ⟨hasType_error.mpr ⟨τ, ?_⟩, isCanonical_error⟩
  rw [PosTy.normalize_eq_self fuel hτ]

theorem isMember_lam {body : PosTerm} : (lam body).IsMember fuel D G τ ↔
    ∃ s r, τ = .arrow s r ∧ body.IsMember fuel D (s :: G) r := by
  rw [IsMember, hasType_lam, PosTy.normalize_eq_self fuel hτ, isCanonical_lam]
  constructor
  · rintro ⟨⟨s, r, h, hbody⟩, hc⟩
    exact ⟨s, r, Option.some.inj h, hbody, hc⟩
  · rintro ⟨s, r, rfl, hbody, hc⟩
    exact ⟨⟨s, r, rfl, hbody⟩, hc⟩

theorem isMember_tyLam {body : PosTerm} : (tyLam body).IsMember fuel D G τ ↔
    ∃ k b, τ = .all k b ∧ body.IsMember fuel (k :: D) (G.map fun s => s.shift 1 0) b := by
  rw [IsMember, hasType_tyLam, PosTy.normalize_eq_self fuel hτ, isCanonical_tyLam]
  constructor
  · rintro ⟨⟨k, b, h, hbody⟩, hc⟩
    exact ⟨k, b, Option.some.inj h, hbody, hc⟩
  · rintro ⟨k, b, rfl, hbody, hc⟩
    exact ⟨⟨k, b, rfl, hbody⟩, hc⟩

theorem isMember_app {f t : PosTerm} {s : PosTy} : (app f t s).IsMember fuel D G τ ↔
    PosTy.InGrammar PosTy.isNormal D .star s ∧ f.IsMember fuel D G (.arrow s τ) ∧
      t.IsMember fuel D G s := by
  rw [IsMember, hasType_app, PosTy.normalize_eq_self fuel hτ, isCanonical_app,
    PosTy.inGrammar_isNormal]
  constructor
  · rintro ⟨⟨τ', h, hk, hf, ht⟩, hs, hcf, hct⟩
    cases h
    exact ⟨⟨hk, hs⟩, ⟨hf, hcf⟩, ht, hct⟩
  · rintro ⟨⟨hk, hs⟩, ⟨hf, hcf⟩, ht, hct⟩
    exact ⟨⟨τ, rfl, hk, hf, ht⟩, hs, hcf, hct⟩

theorem isMember_inst {t : PosTerm} {b s : PosTy} {k : Kind} :
    (inst t b s k).IsMember fuel D G τ ↔
      PosTy.InGrammar PosTy.isNormal (k :: D) .star b ∧ PosTy.InGrammar PosTy.isNormal D k s ∧
        (b.instantiate s).normalize fuel = some τ ∧ t.IsMember fuel D G (.all k b) := by
  rw [IsMember, hasType_inst, PosTy.normalize_eq_self fuel hτ, isCanonical_inst,
    PosTy.inGrammar_isNormal, PosTy.inGrammar_isNormal]
  constructor
  · rintro ⟨⟨τ', h, hkb, hks, hn, ht⟩, hb, hs, hc⟩
    cases h
    exact ⟨⟨hkb, hb⟩, ⟨hks, hs⟩, hn, ht, hc⟩
  · rintro ⟨⟨hkb, hb⟩, ⟨hks, hs⟩, hn, ht, hc⟩
    exact ⟨⟨τ, rfl, hkb, hks, hn, ht⟩, hb, hs, hc⟩

end

/-- The constructors of terms. -/
inductive Shape where
  | var
  | const
  | error
  | lam
  | tyLam
  | app
  | inst
deriving DecidableEq

def shape : PosTerm → Shape
  | .var _ => .var
  | .const _ => .const
  | .error => .error
  | .lam _ => .lam
  | .tyLam _ => .tyLam
  | .app _ _ _ => .app
  | .inst _ _ _ _ => .inst

end PosTerm

/-- The literals of a builtin type are the canonical ones that name it as theirs. -/
theorem Builtin.literals_lists (b : Builtin) :
    Lists b.literals fun l => b = l.builtin ∧ l.isCanonical = true := by
  refine ⟨by cases b <;> decide, fun l => ?_⟩
  have hnamed : ∀ l ∈ b.literals, b = l.builtin := by cases b <;> decide
  rw [Literal.isCanonical_iff]
  constructor
  · intro hl
    have hb := hnamed l hl
    rw [← hb]
    exact ⟨rfl, hl⟩
  · rintro ⟨rfl, hl⟩
    exact hl

namespace TermEnumeration

open PosTerm (IsMember Shape)

variable {fuel n : Nat} {e : TermEnumeration}

/-- An enumeration lists the canonical terms of every normal type, up to the size `n`. -/
def ListsUpTo (fuel : Nat) (e : TermEnumeration) (n : Nat) : Prop :=
  ∀ D G τ m, (∀ s ∈ G, PosTy.step s = none) → PosTy.step τ = none → m ≤ n →
    Lists (e D G τ m) fun t => IsMember fuel D G τ t ∧ t.size = m

/-- An enumeration lists the canonical terms that have the size `n` and one shape. -/
def ListsShape (fuel : Nat) (c : TermEnumeration) (s : Shape) (n : Nat) : Prop :=
  ∀ D G τ, (∀ s ∈ G, PosTy.step s = none) → PosTy.step τ = none →
    Lists (c D G τ n) fun t => t.shape = s ∧ IsMember fuel D G τ t ∧ t.size = n

/-! ## One constructor at a time -/

theorem references_lists (fuel n : Nat) : ListsShape fuel references .var (n + 1) := by
  intro D G τ hG hτ
  refine (Lists.ite fun _ => .singleton (PosTerm.var n)).congr fun t => ?_
  cases t with
  | var i =>
    rw [PosTerm.isMember_var hτ hG, Scope.find?_eq_some_iff]
    simp only [PosTerm.shape, PosTerm.size, PosTerm.var.injEq, true_and]
    constructor
    · rintro ⟨h, rfl⟩
      exact ⟨⟨Int.natCast_nonneg n, h⟩, rfl⟩
    · rintro ⟨⟨hi, h⟩, hsize⟩
      obtain rfl : i = n := by omega
      exact ⟨h, rfl⟩
  | _ => simp [PosTerm.shape]

theorem constants_lists (fuel n : Nat) : ListsShape fuel constants .const (n + 1) := by
  intro D G τ _ hτ
  cases τ with
  | builtin b =>
    have hconst : Function.Injective PosTerm.const := fun _ _ => PosTerm.const.inj
    refine (Lists.ite fun _ => b.literals_lists.map hconst).congr fun t => ?_
    cases t with
    | const l =>
      rw [PosTerm.isMember_const hτ]
      simp only [PosTerm.shape, PosTerm.size, PosTerm.const.injEq, exists_eq_right, true_and,
        PosTy.builtin.injEq]
      rw [and_comm]
      exact and_congr_right fun _ => by omega
    | _ => simp [PosTerm.shape]
  | _ =>
    refine .nil fun t ht => ?_
    cases t with
    | const l => cases ((PosTerm.isMember_const hτ).mp ht.2.1).1
    | _ => cases ht.1

theorem errors_lists (fuel n : Nat) : ListsShape fuel errors .error (n + 1) := by
  intro D G τ _ hτ
  refine (Lists.ite fun _ => .singleton PosTerm.error).congr fun t => ?_
  cases t with
  | error =>
    have herror : IsMember fuel D G τ .error := PosTerm.isMember_error hτ
    simp only [PosTerm.shape, PosTerm.size, herror, and_true, true_and]
    omega
  | _ => simp [PosTerm.shape]

theorem lambdas_lists (he : ListsUpTo fuel e n) : ListsShape fuel (lambdas e) .lam (n + 1) := by
  intro D G τ hG hτ
  cases τ with
  | arrow s r =>
    obtain ⟨hs, hr⟩ := PosTy.step_arrow_eq_none.mp hτ
    have hbody := he D (s :: G) r n (List.forall_mem_cons.mpr ⟨hs, hG⟩) hr (Nat.le_refl n)
    refine (hbody.map fun _ _ h => PosTerm.lam.inj h).congr fun t => ?_
    cases t with
    | lam body =>
      rw [PosTerm.isMember_lam hτ]
      simp only [PosTerm.shape, PosTerm.size, PosTerm.lam.injEq, true_and]
      constructor
      · rintro ⟨_, ⟨hbody, hsize⟩, rfl⟩
        exact ⟨⟨s, r, rfl, hbody⟩, by omega⟩
      · rintro ⟨⟨_, _, h, hbody⟩, hsize⟩
        cases h
        exact ⟨body, ⟨hbody, by omega⟩, rfl⟩
    | _ => simp [PosTerm.shape]
  | _ =>
    refine .nil fun t ht => ?_
    cases t with
    | lam body =>
      obtain ⟨_, _, h, _⟩ := (PosTerm.isMember_lam hτ).mp ht.2.1
      cases h
    | _ => cases ht.1

theorem tyLambdas_lists (he : ListsUpTo fuel e n) :
    ListsShape fuel (tyLambdas e) .tyLam (n + 1) := by
  intro D G τ hG hτ
  cases τ with
  | all k b =>
    -- under the binder the types in scope are shifted, and they stay normal
    have hG' : ∀ s ∈ G.map fun s => s.shift 1 0, s.step = none := by
      intro s hs
      obtain ⟨s', hs', rfl⟩ := List.mem_map.mp hs
      exact PosTy.step_shift (hG s' hs') 1 0
    have hbody := he (k :: D) _ b n hG' (PosTy.step_all_eq_none.mp hτ) (Nat.le_refl n)
    refine (hbody.map fun _ _ h => PosTerm.tyLam.inj h).congr fun t => ?_
    cases t with
    | tyLam body =>
      rw [PosTerm.isMember_tyLam hτ]
      simp only [PosTerm.shape, PosTerm.size, PosTerm.tyLam.injEq, true_and]
      constructor
      · rintro ⟨_, ⟨hbody, hsize⟩, rfl⟩
        exact ⟨⟨k, b, rfl, hbody⟩, by omega⟩
      · rintro ⟨⟨_, _, h, hbody⟩, hsize⟩
        cases h
        exact ⟨body, ⟨hbody, by omega⟩, rfl⟩
    | _ => simp [PosTerm.shape]
  | _ =>
    refine .nil fun t ht => ?_
    cases t with
    | tyLam body =>
      obtain ⟨_, _, h, _⟩ := (PosTerm.isMember_tyLam hτ).mp ht.2.1
      cases h
    | _ => cases ht.1

theorem applications_lists (he : ListsUpTo fuel e n) :
    ListsShape fuel (applications e) .app (n + 1) := by
  intro D G τ hG hτ
  have hpair : ∀ s (rest : Nat), PosTy.InGrammar PosTy.isNormal D .star s →
      s.size + rest = n →
      Lists ((splits 1 rest).flatMap fun p =>
          cross (fun f t => PosTerm.app f t s) (e D G (.arrow s τ) p.1) fun _ => e D G s p.2)
        fun t => ∃ f a, IsMember fuel D G (.arrow s τ) f ∧ IsMember fuel D G s a ∧
          f.size + a.size = rest ∧ PosTerm.app f a s = t := by
    intro s rest hs hn
    have hsize := hs.size_pos
    have hstep := (PosTy.inGrammar_isNormal.mp hs).2
    have harrow : (PosTy.arrow s τ).step = none := PosTy.step_arrow_eq_none.mpr ⟨hstep, hτ⟩
    exact Lists.ofPairs (fun i hi => he D G _ i hG harrow (by omega)) (fun _ hf => hf.size_pos)
      (fun i hi => he D G s i hG hstep (by omega)) (fun _ ha => ha.size_pos)
      fun _ _ _ _ h => ⟨(PosTerm.app.inj h).1, (PosTerm.app.inj h).2.1⟩
  have htypes : ∀ i, i + 2 ≤ n → Lists (PosTy.normalOfSize D .star i)
      fun s => PosTy.InGrammar PosTy.isNormal D .star s ∧ s.size = i :=
    fun i _ => PosTy.normalOfSize_lists D .star i
  have hparts := Lists.ofParts Nat.two_pos htypes (fun _ hs => hs.size_pos) hpair <| by
    -- the term carries the type of its argument, so it is listed for no other type
    rintro s s' rest rest' t ⟨f, a, _, _, _, rfl⟩ ⟨f', a', _, _, _, h⟩
    exact (PosTerm.app.inj h).2.2.symm
  refine hparts.congr fun t => ?_
  cases t with
  | app f a s =>
    rw [PosTerm.isMember_app hτ]
    simp only [PosTerm.shape, PosTerm.size, PosTerm.app.injEq, true_and]
    constructor
    · rintro ⟨_, rest, hs, _, hn, _, _, hf, ha, hsize, rfl, rfl, rfl⟩
      exact ⟨⟨hs, hf, ha⟩, by omega⟩
    · rintro ⟨⟨hs, hf, ha⟩, hn⟩
      have := hf.size_pos
      have := ha.size_pos
      exact ⟨s, (f.size + a.size).toNat, hs, by omega, by omega, f, a, hf, ha, by omega,
        rfl, rfl, rfl⟩
  | _ => simp [PosTerm.shape]

/-- The terms of size `m`, instantiated at `s`, if the instance has the wanted type. -/
def instances (fuel : Nat) (e : TermEnumeration) (D : List Kind) (G : List PosTy) (τ : PosTy)
    (k : Kind) (b s : PosTy) (m : Nat) : List PosTerm :=
  if (b.instantiate s).normalize fuel = some τ then
    (e D G (.all k b) m).map fun t => .inst t b s k
  else []

/-- The enumeration of instances, without what it shares between the bodies. -/
theorem instantiations_eq (fuel : Nat) (e : TermEnumeration) (D : List Kind) (G : List PosTy)
    (τ : PosTy) (n : Nat) :
    instantiations fuel e D G τ (n + 1) =
      (splits 3 n).flatMap fun p => (Kind.ofSize p.1).flatMap fun k =>
        (splits 2 p.2).flatMap fun q => (PosTy.normalOfSize (k :: D) .star q.1).flatMap fun b =>
          (splits 1 q.2).flatMap fun r => (PosTy.normalOfSize D k r.1).flatMap fun s =>
            instances fuel e D G τ k b s r.2 := by
  simp only [instantiations, instances, List.flatMap_map, Nat.add_sub_cancel]

/-- An instance of the wanted type, at the body `b` and the argument `s`. -/
def IsInstance (fuel : Nat) (D : List Kind) (G : List PosTy) (τ : PosTy) (k : Kind) (b s : PosTy)
    (m : Nat) (t : PosTerm) : Prop :=
  (b.instantiate s).normalize fuel = some τ ∧
    ∃ t', (IsMember fuel D G (.all k b) t' ∧ t'.size = m) ∧ .inst t' b s k = t

theorem IsInstance.inj {D : List Kind} {G : List PosTy} {τ : PosTy} {k k' : Kind}
    {b b' s s' : PosTy} {m m' : Nat} {t : PosTerm} (h : IsInstance fuel D G τ k b s m t)
    (h' : IsInstance fuel D G τ k' b' s' m' t) : k = k' ∧ b = b' ∧ s = s' := by
  obtain ⟨_, _, _, rfl⟩ := h
  obtain ⟨_, _, _, h⟩ := h'
  obtain ⟨_, hb, hs, hk⟩ := PosTerm.inst.inj h
  exact ⟨hk.symm, hb.symm, hs.symm⟩

section

variable {D : List Kind} {G : List PosTy} {τ : PosTy} (he : ListsUpTo fuel e n)
  (hG : ∀ s ∈ G, s.step = none)

include he hG

theorem instances_lists {k : Kind} {b : PosTy}
    (hb : PosTy.InGrammar PosTy.isNormal (k :: D) .star b) (s : PosTy) {m : Nat} (hm : m ≤ n) :
    Lists (instances fuel e D G τ k b s m) (IsInstance fuel D G τ k b s m) := by
  have hall : (PosTy.all k b).step = none :=
    PosTy.step_all_eq_none.mpr (PosTy.inGrammar_isNormal.mp hb).2
  have hterms := he D G (.all k b) m hG hall hm
  exact Lists.ite fun _ => hterms.map fun _ _ h => (PosTerm.inst.inj h).1

/-- All instances at one body. -/
theorem instancesAtBody_lists {k : Kind} {b : PosTy}
    (hb : PosTy.InGrammar PosTy.isNormal (k :: D) .star b) {rest : Nat} (hrest : rest ≤ n) :
    Lists ((splits 1 rest).flatMap fun r => (PosTy.normalOfSize D k r.1).flatMap fun s =>
        instances fuel e D G τ k b s r.2)
      fun t => ∃ (s : PosTy) (m : Nat), PosTy.InGrammar PosTy.isNormal D k s ∧ 1 ≤ m ∧
        s.size + m = rest ∧ IsInstance fuel D G τ k b s m t := by
  refine Lists.ofParts Nat.one_pos (fun i _ => PosTy.normalOfSize_lists D k i)
    (fun _ hs => hs.size_pos) ?_ fun h h' => (h.inj h').2.2
  intro s m hs hm
  have := hs.size_pos
  exact instances_lists he hG hb s (by omega)

/-- All instances at one kind. -/
theorem instancesAtKind_lists (k : Kind) {rest : Nat} (hrest : rest ≤ n) :
    Lists ((splits 2 rest).flatMap fun q =>
        (PosTy.normalOfSize (k :: D) .star q.1).flatMap fun b =>
          (splits 1 q.2).flatMap fun r => (PosTy.normalOfSize D k r.1).flatMap fun s =>
            instances fuel e D G τ k b s r.2)
      fun t => ∃ (b : PosTy) (rest' : Nat), PosTy.InGrammar PosTy.isNormal (k :: D) .star b ∧
        2 ≤ rest' ∧ b.size + rest' = rest ∧
        ∃ (s : PosTy) (m : Nat), PosTy.InGrammar PosTy.isNormal D k s ∧ 1 ≤ m ∧
          s.size + m = rest' ∧ IsInstance fuel D G τ k b s m t := by
  have hle : ∀ b (rest' : Nat), PosTy.InGrammar PosTy.isNormal (k :: D) .star b →
      b.size + rest' = rest → rest' ≤ n := by
    intro b rest' hb hn
    have := hb.size_pos
    omega
  have hbody := fun (b : PosTy) (rest' : Nat) hb (hn : b.size + rest' = rest) =>
    instancesAtBody_lists (τ := τ) he hG hb (hle b rest' hb hn)
  refine Lists.ofParts Nat.two_pos (fun i _ => PosTy.normalOfSize_lists (k :: D) .star i)
    (fun _ hb => hb.size_pos) hbody ?_
  rintro b b' _ _ t ⟨_, _, _, _, _, h⟩ ⟨_, _, _, _, _, h'⟩
  exact (h.inj h').2.1

end

theorem instantiations_lists (he : ListsUpTo fuel e n) :
    ListsShape fuel (instantiations fuel e) .inst (n + 1) := by
  intro D G τ hG hτ
  rw [instantiations_eq]
  have hle : ∀ k (rest : Nat), (Kind.size k : Int) + rest = n → rest ≤ n := by omega
  have hkind := fun k (rest : Nat) (_ : True) (hn : (Kind.size k : Int) + rest = n) =>
    instancesAtKind_lists (D := D) (τ := τ) he hG k (hle k rest hn)
  have hparts := Lists.ofParts (Nat.zero_lt_succ 2) (fun i _ => Kind.ofSize_parts i)
    (fun k _ => k.one_le_cast_size) hkind <| by
    rintro k k' _ _ t ⟨_, _, _, _, _, _, _, _, _, _, h⟩ ⟨_, _, _, _, _, _, _, _, _, _, h'⟩
    exact (h.inj h').1
  refine hparts.congr fun t => ?_
  cases t with
  | inst t b s k =>
    rw [PosTerm.isMember_inst hτ]
    simp only [PosTerm.shape, PosTerm.size, true_and]
    constructor
    · rintro ⟨_, rest, _, hk, _, rest', hb, _, hb', _, m, hs, _, hs', hn, _, ⟨ht, hm⟩, h⟩
      cases h
      exact ⟨⟨hb, hs, hn, ht⟩, by omega⟩
    · rintro ⟨⟨hb, hs, hn, ht⟩, hsize⟩
      have := hb.size_pos
      have := hs.size_pos
      have := ht.size_pos
      exact ⟨k, (b.size + s.size + t.size).toNat, by omega, by omega,
        b, (s.size + t.size).toNat, hb, by omega, by omega,
        s, t.size.toNat, hs, by omega, by omega, hn, t, ⟨ht, by omega⟩, rfl⟩
  | _ => simp [PosTerm.shape, IsInstance]

/-! ## All constructors -/

theorem ListsUpTo.mono {m : Nat} (h : ListsUpTo fuel e n) (hm : m ≤ n) : ListsUpTo fuel e m :=
  fun D G τ i hG hτ hi => h D G τ i hG hτ (Nat.le_trans hi hm)

theorem constructors_list (he : ListsUpTo fuel e n) {D : List Kind} {G : List PosTy} {τ : PosTy}
    (hG : ∀ s ∈ G, s.step = none) (hτ : τ.step = none) :
    Lists ((constructors fuel e).flatMap fun c => c D G τ (n + 1))
      fun t => IsMember fuel D G τ t ∧ t.size = (n + 1 : Nat) := by
  have h : List.Forall₂ (fun c s => ListsShape fuel c s (n + 1)) (constructors fuel e)
      [.var, .const, .error, .lam, .tyLam, .app, .inst] :=
    .cons (references_lists fuel n) <| .cons (constants_lists fuel n) <|
    .cons (errors_lists fuel n) <| .cons (lambdas_lists he) <| .cons (tyLambdas_lists he) <|
    .cons (applications_lists he) <| .cons (instantiations_lists he) .nil
  have hlists := Lists.ofShapes (h.imp fun _ _ hc => hc D G τ hG hτ) (by decide)
  refine hlists.congr fun t => and_iff_right_of_imp fun _ => ?_
  cases t <;> simp [PosTerm.shape]

end TermEnumeration

namespace PosTerm

open TermEnumeration

theorem ofSizeWithin_lists (fuel bound : Nat) :
    ListsUpTo fuel (ofSizeWithin fuel bound) bound := by
  induction bound with
  | zero =>
    intro D G τ m _ _ hm
    obtain rfl : m = 0 := by omega
    refine .nil fun t ht => ?_
    have := ht.1.size_pos
    omega
  | succ bound ih =>
    intro D G τ m hG hτ hm
    cases m with
    | zero =>
      refine .nil fun t ht => ?_
      have := ht.1.size_pos
      omega
    | succ m => exact constructors_list (ih.mono (by omega)) hG hτ

theorem ofSize_lists {D : List Kind} {G : List PosTy} {τ : PosTy} (hG : ∀ s ∈ G, s.step = none)
    (hτ : τ.step = none) (fuel n : Nat) :
    Lists (ofSize fuel D G τ n) fun t => IsMember fuel D G τ t ∧ t.size = n :=
  ofSizeWithin_lists fuel n D G τ n hG hτ (Nat.le_refl n)

end PosTerm

end FomegaLab
