-- Naming positional terms. A term that has a type is named without complaint, and
-- what comes out has the named type: the two checkers agree, the one that goes by
-- position and the one that goes by name.
import FomegaLab.Proofs.Conversion.Types
import FomegaLab.Proofs.Positional.TermDenotation
import FomegaLab.Proofs.Typing.Inference

namespace FomegaLab

open NamelessTy (NormalForm)

/-! ## What the scopes of the two sides have to do with each other -/

/-- The names in scope stand for the binders of the positional side: a type name has
the kind of its binder, and a term name has the type of its binder, in normal form and
with names for references. -/
structure Scoped (D : List Kind) (G : List PosTy) (tyScope : NameScope TyName)
    (scope : NameScope Name) (K : NameKinds) (Γ : NameTypes) (n : Int) : Prop where
  tyFits : tyScope.Fits D.length n
  fits : scope.Fits G.length n
  kind : ∀ (i : Nat) k, D[i]? = some k → ∃ a, tyScope.names[i]? = some a ∧ K a = some k
  type : ∀ (i : Nat) τ, G[i]? = some τ → ∃ x u U, scope.names[i]? = some x ∧
    Denotes D .star τ u ∧ NormalForm u U ∧ Γ x = some (U.rename (.openWith tyScope.names))
  below : ∀ x S, Γ x = some S → ∀ a, S.Occurs (.free a) → a.unique < n

namespace Scoped

variable {D : List Kind} {G : List PosTy} {tyScope : NameScope TyName} {scope : NameScope Name}
  {K : NameKinds} {Γ : NameTypes} {n m : Int}

theorem mono (h : Scoped D G tyScope scope K Γ n) (hnm : n ≤ m) :
    Scoped D G tyScope scope K Γ m :=
  ⟨h.tyFits.mono hnm, h.fits.mono hnm, h.kind, h.type,
    fun x S hS a ha => Int.lt_of_lt_of_le (h.below x S hS a ha) hnm⟩

theorem empty (tyTexts texts : NameStream) (n : Int) :
    Scoped [] [] (.empty tyTexts) (.empty texts) (fun _ => none) (fun _ => none) n :=
  ⟨.empty tyTexts n, .empty texts n, nofun, nofun, nofun⟩

/-- The names of a named meaning are names in scope. -/
theorem unique_lt (h : Scoped D G tyScope scope K Γ n) {k : Kind} {τ : PosTy} {u : NamelessTy}
    (hu : Denotes D k τ u) {a : TyName}
    (ha : (u.rename (.openWith tyScope.names)).Occurs (.free a)) : a.unique < n := by
  obtain ⟨r, hr, hra⟩ := NamelessTy.occurs_rename.mp ha
  obtain ⟨i, j, rfl, hj⟩ := hu.exists_of_occurs hr
  obtain ⟨b, hb, _⟩ := h.kind i j hj
  rw [Ref.openWith_bound hb] at hra
  cases hra
  exact h.tyFits.below a (List.mem_of_getElem? hb)

/-- A new term binder. -/
theorem push (h : Scoped D G tyScope scope K Γ n) {τ : PosTy} {U : NamelessTy}
    (hτ : Denotes D .star τ U) (hU : U.Normal) :
    Scoped D (τ :: G) tyScope (scope.push n) K
      (Function.update Γ (scope.next n) (some (U.rename (.openWith tyScope.names)))) (n + 1) := by
  have hn : n ≤ n + 1 := by omega
  refine ⟨h.tyFits.mono hn, h.fits.push, h.kind, fun i σ hσ => ?_, fun x S hS a ha => ?_⟩
  · cases i with
    | zero =>
      cases hσ
      exact ⟨scope.next n, U, U, rfl, hτ, hU.normalForm, Function.update_self _ _ _⟩
    | succ i =>
      obtain ⟨x, u, V, hx, hu, hV, hΓ⟩ := h.type i σ hσ
      have hne : x ≠ scope.next n := fun hx' =>
        h.fits.next_not_mem (hx' ▸ List.mem_of_getElem? hx)
      exact ⟨x, u, V, hx, hu, hV, by rw [Function.update_of_ne hne, hΓ]⟩
  · by_cases hx : x = scope.next n
    · rw [hx, Function.update_self] at hS
      cases hS
      exact Int.lt_trans (h.unique_lt hτ ha) (Int.lt_succ n)
    · rw [Function.update_of_ne hx] at hS
      exact Int.lt_trans (h.below x S hS a ha) (Int.lt_succ n)

/-- A new type binder. The types in scope are seen from under it. -/
theorem pushTy (h : Scoped D G tyScope scope K Γ n) (k : Kind) :
    Scoped (k :: D) (G.map fun s => s.shift 1 0) (tyScope.push n) scope
      (Function.update K (tyScope.next n) (some k)) Γ (n + 1) := by
  have hn : n ≤ n + 1 := by omega
  refine ⟨h.tyFits.push, ?_, fun i j hj => ?_, fun i τ hτ => ?_, fun x S hS a ha => ?_⟩
  · rw [List.length_map]
    exact h.fits.mono hn
  · cases i with
    | zero =>
      cases hj
      exact ⟨tyScope.next n, rfl, Function.update_self _ _ _⟩
    | succ i =>
      obtain ⟨a, ha, hK⟩ := h.kind i j hj
      have hne : a ≠ tyScope.next n := fun ha' =>
        h.tyFits.next_not_mem (ha' ▸ List.mem_of_getElem? ha)
      exact ⟨a, ha, by rw [Function.update_of_ne hne, hK]⟩
  · rw [List.getElem?_map, Option.map_eq_some_iff] at hτ
    obtain ⟨σ, hσ, rfl⟩ := hτ
    obtain ⟨x, u, U, hx, hu, hU, hΓ⟩ := h.type i σ hσ
    refine ⟨x, u.rename .succ, U.rename .succ, hx, hu.shiftOne k, hU.rename _, ?_⟩
    rw [hΓ, NamelessTy.rename_rename]
    congr 2
    funext r
    exact (Ref.openWith_succ _ _ r).symm
  · exact Int.lt_trans (h.below x S hS a ha) (Int.lt_succ n)

end Scoped

/-! ## Meanings with names for references -/

/-- Under a term binder, naming uses one more name, and the binder takes it back. -/
theorem DenotesTerm.abstract_openWith {D : List Kind} {G : List NamelessTy} {S T : NamelessTy}
    {t : PosTerm} {M : NamelessTerm} (h : DenotesTerm D (S :: G) T t M) {names : List Name}
    (hlen : names.length = G.length) {x : Name} (hx : x ∉ names) (ρ : Ref TyName → Ref TyName) :
    (M.rename ρ (.openWith (x :: names))).abstract x = M.rename ρ (.lift (.openWith names)) := by
  rw [NamelessTerm.abstract, NamelessTerm.rename_rename]
  refine h.hasNamelessType.rename_congr (fun _ _ _ => rfl) fun r U hr => ?_
  obtain ⟨i, hi, rfl⟩ := TypeScope.ofList_eq_some hr
  exact Ref.bind_openWith hx (hlen ▸ hi)

/-- Under a type binder, naming uses one more name, and the binder takes it back. -/
theorem DenotesTerm.abstractTy_openWith {D : List Kind} {G : List NamelessTy} {k : Kind}
    {T : NamelessTy} {t : PosTerm} {M : NamelessTerm} (h : DenotesTerm (k :: D) G T t M)
    {names : List TyName} (hlen : names.length = D.length) {a : TyName} (ha : a ∉ names)
    (τ : Ref Name → Ref Name) :
    (M.rename (.openWith (a :: names)) τ).abstractTy a = M.rename (.lift (.openWith names)) τ := by
  rw [NamelessTerm.abstractTy, NamelessTerm.rename_rename]
  refine h.hasNamelessType.rename_congr (fun r j hr => ?_) fun _ _ _ => rfl
  obtain ⟨i, hi, rfl⟩ := KindScope.ofList_eq_some hr
  exact Ref.bind_openWith ha (hlen ▸ hi)

/-! ## Naming keeps the type -/

theorem Convert.run_normalForm {fuel fuel' : Nat} {τ τ' : PosTy} (h : τ.normalize fuel = some τ')
    (hle : fuel ≤ fuel') (n : Int) : (Convert.normalForm fuel' τ).run n = (.ok τ', n) := by
  rw [Convert.normalForm, PosTy.normalize_mono hle h]
  rfl

/-- What naming a term of type `U` gives. -/
structure NamedTermSpec (K : NameKinds) (Γ : NameTypes) (n : Int) (U : NamelessTy) (t : Term)
    (m : Int) : Prop where
  le : n ≤ m
  below : t.Below m
  typed : HasType K Γ t U

/-- With the fuel, naming the term at the type `τ` gives a term that has the type `U` by name
and that stands for whatever the positional term means in as many types. -/
def PosTerm.IsNamed (fuel : Nat) (D : List Kind) (G : List PosTy) (tyScope : NameScope TyName)
    (scope : NameScope Name) (K : NameKinds) (Γ : NameTypes) (n : Int) (τ : PosTy)
    (U : NamelessTy) (t : PosTerm) : Prop :=
  ∃ t' m, (∀ fuel' ≥ fuel, (t.toNamed fuel' tyScope scope (some D) τ).run n = (.ok t', m)) ∧
    NamedTermSpec K Γ n (U.rename (.openWith tyScope.names)) t' m ∧
    ∀ G' M, G'.length = G.length → DenotesTerm D G' U t M →
      t'.nameless = M.rename (.openWith tyScope.names) (.openWith scope.names)

namespace PosTerm.IsNamed

variable {fuel : Nat} {D : List Kind} {G : List PosTy} {tyScope : NameScope TyName}
  {scope : NameScope Name} {K : NameKinds} {Γ : NameTypes} {n : Int} {τ τ' s r b : PosTy}
  {k : Kind} {B R S U V u v : NamelessTy} {f t body : PosTerm}

theorem var {i : Int} (hs : Scoped D G tyScope scope K Γ n) (hτ : τ.normalize fuel = some τ')
    (hU : Denotes D .star τ' U) (hi : 0 ≤ i) (hG : G[i.toNat]? = some s)
    (hn : s.normalize fuel = some τ') :
    IsNamed fuel D G tyScope scope K Γ n τ U (.var i) := by
  obtain ⟨x, v, V, hx, hv, hV, hΓ⟩ := hs.type i.toNat s hG
  cases (hv.of_normalize hV hn).unique hU
  have hname := Convert.run_nameOf (n := n) hx
  rw [Int.toNat_of_nonneg hi] at hname
  refine ⟨.var x, n, fun fuel' hle => ?_, ⟨Int.le_refl n,
    hs.fits.below x (List.mem_of_getElem? hx), .var hΓ⟩, fun G' _ _ hM => ?_⟩
  · apply Fresh.run_bind_ok (Convert.run_normalForm hτ hle n)
    apply Fresh.run_bind_ok hname
    rfl
  · cases hM with
    | var hi _ =>
      rw [hi, Int.toNat_natCast] at hx
      rw [Term.nameless, NamelessTerm.rename, Ref.openWith_bound hx]

/-- The declared type is named before the body, at the name of the binder. -/
theorem lam (hs : Scoped D G tyScope scope K Γ n) (hτ : τ.normalize fuel = some (.arrow s r))
    (hS : Denotes D .star s S) (hnormal : S.Normal)
    (hbody : ∀ l ≥ n + 1, IsNamed fuel D (s :: G) tyScope (scope.push n) K
      (Function.update Γ (scope.next n) (some (S.rename (.openWith tyScope.names)))) l r R body) :
    IsNamed fuel D G tyScope scope K Γ n τ (.arrow S R) (.lam body) := by
  obtain ⟨declared, l, hrun₁, hle₁, hb₁, hname⟩ := hS.toNamed (hs.push hS hnormal).tyFits
  obtain ⟨body', m, hrun₂, ⟨hle₂, hb₂, htyped⟩, hmeaning⟩ := hbody l hle₁
  have hx : (scope.next n).unique < m :=
    Int.lt_of_lt_of_le (Int.lt_succ n) (Int.le_trans hle₁ hle₂)
  refine ⟨.lam (scope.next n) declared body', m, fun fuel' hle => ?_,
    ⟨by omega, ⟨hx, hb₁.mono hle₂, hb₂⟩, .lam ?_ ?_ htyped⟩, fun G' _ hlen hM => ?_⟩
  · apply Fresh.run_bind_ok (Convert.run_normalForm hτ hle n)
    apply Fresh.run_bind_ok (scope.run_extend n)
    apply Fresh.run_bind_ok hrun₁
    apply Fresh.run_bind_ok (hrun₂ fuel' hle)
    rfl
  · rw [hname]
    exact hS.kind?_named hs.kind
  · rw [hname]
    exact hnormal.normalForm.rename _
  · cases hM with
    | lam _ _ hM =>
      have hlen' : (S :: G').length = (s :: G).length := congrArg (· + 1) hlen
      rw [Term.nameless, NamelessTerm.rename, hname, hmeaning _ _ hlen' hM, NameScope.push,
        hM.abstract_openWith (hs.fits.length.trans hlen.symm) hs.fits.next_not_mem]

theorem app (hτ : τ.normalize fuel = some τ') (hv : Denotes D .star s v) (hV : NormalForm v V)
    (hf : IsNamed fuel D G tyScope scope K Γ n (.arrow s τ') (.arrow V U) f)
    (ht : ∀ l ≥ n, IsNamed fuel D G tyScope scope K Γ l s V t) :
    IsNamed fuel D G tyScope scope K Γ n τ U (.app f t s) := by
  obtain ⟨f', l, hrun₁, ⟨hle₁, hb₁, hF⟩, hmeaning₁⟩ := hf
  obtain ⟨t', m, hrun₂, ⟨hle₂, hb₂, hT⟩, hmeaning₂⟩ := ht l hle₁
  refine ⟨.app f' t', m, fun fuel' hle => ?_, ⟨by omega, ⟨hb₁.mono hle₂, hb₂⟩, .app hF hT⟩,
    fun G' _ hlen hM => ?_⟩
  · apply Fresh.run_bind_ok (Convert.run_normalForm hτ hle n)
    apply Fresh.run_bind_ok (hrun₁ fuel' hle)
    apply Fresh.run_bind_ok (hrun₂ fuel' hle)
    rfl
  · cases hM with
    | app hs hS hF hM =>
      cases hs.unique hv
      cases hS.unique hV
      rw [Term.nameless, NamelessTerm.rename, hmeaning₁ G' _ hlen hF, hmeaning₂ G' _ hlen hM]

/-- The types in scope are older than the name of the binder, so they do not mention it. -/
theorem tyLam (hs : Scoped D G tyScope scope K Γ n) (hτ : τ.normalize fuel = some (.all k b))
    (hB : Denotes (k :: D) .star b B)
    (hbody : IsNamed fuel (k :: D) (G.map fun s => s.shift 1 0) (tyScope.push n) scope
      (Function.update K (tyScope.next n) (some k)) Γ (n + 1) b B body) :
    IsNamed fuel D G tyScope scope K Γ n τ (.all k B) (.tyLam body) := by
  obtain ⟨body', m, hrun, ⟨hle₁, hb, htyped⟩, hmeaning⟩ := hbody
  have ha : (tyScope.next n).unique < m := Int.lt_of_lt_of_le (Int.lt_succ n) hle₁
  refine ⟨.tyLam (tyScope.next n) k body', m, fun fuel' hle => ?_,
    ⟨by omega, ⟨ha, hb⟩, ?_⟩, fun G' _ hlen hM => ?_⟩
  · apply Fresh.run_bind_ok (Convert.run_normalForm hτ hle n)
    apply Fresh.run_bind_ok (tyScope.run_extend n)
    apply Fresh.run_bind_ok (hrun fuel' hle)
    rfl
  · rw [NamelessTy.rename, ← hB.abstract_openWith hs.tyFits.length hs.tyFits.next_not_mem]
    exact .tyLam htyped fun x _ S hS hoccurs => Int.lt_irrefl n (hs.below x S hS _ hoccurs)
  · cases hM with
    | tyLam hM =>
      have hlen' : (G'.map (·.rename Ref.succ)).length = (G.map fun s => s.shift 1 0).length := by
        rw [List.length_map, List.length_map, hlen]
      rw [Term.nameless, NamelessTerm.rename, hmeaning _ _ hlen' hM, NameScope.push,
        hM.abstractTy_openWith hs.tyFits.length hs.tyFits.next_not_mem]

/-- The instance is normalized by both sides, from bodies that reduce to each other. -/
theorem inst (hs : Scoped D G tyScope scope K Γ n) (hτ : τ.normalize fuel = some τ')
    (hU : Denotes D .star τ' U) (hb : Denotes (k :: D) .star b u) (hB : NormalForm u B)
    (hv : Denotes D k s v) (hn : (b.instantiate s).normalize fuel = some τ')
    (ht : IsNamed fuel D G tyScope scope K Γ n (.all k b) (.all k B) t) :
    IsNamed fuel D G tyScope scope K Γ n τ U (.inst t b s k) := by
  obtain ⟨t', l, hrun₁, ⟨hle₁, hb₁, hT⟩, hmeaning⟩ := ht
  obtain ⟨s', m, hrun₂, hle₂, hb₂, hname⟩ := hv.toNamed (hs.tyFits.mono hle₁)
  refine ⟨.inst t' s', m, fun fuel' hle => ?_, ⟨by omega, ⟨hb₁.mono hle₂, hb₂⟩,
    .inst hT ?_ ?_⟩, fun G' _ hlen hM => ?_⟩
  · apply Fresh.run_bind_ok (Convert.run_normalForm hτ hle n)
    apply Fresh.run_bind_ok (hrun₁ fuel' hle)
    apply Fresh.run_bind_ok hrun₂
    rfl
  · rw [hname]
    exact hv.kind?_named hs.kind
  · obtain ⟨U', hU', hinst⟩ := (hb.instantiate hv).normalize hn
    cases hU'.unique hU
    rw [hname, ← NamelessTy.inst_rename]
    exact (hinst.after_steps (.inst hB.steps .refl)).rename _
  · cases hM with
    | inst hb' hB' hs' _ hM =>
      cases hb'.unique hb
      cases hB'.unique hB
      cases hs'.unique hv
      rw [Term.nameless, NamelessTerm.rename, hname, hmeaning G' _ hlen hM]

theorem const {l : Literal} (hτ : τ.normalize fuel = some (.builtin l.builtin)) :
    IsNamed fuel D G tyScope scope K Γ n τ (.builtin l.builtin) (.const l) := by
  refine ⟨.const l, n, fun fuel' hle => ?_, ⟨Int.le_refl n, trivial, .const l⟩,
    fun G' _ _ hM => ?_⟩
  · apply Fresh.run_bind_ok (Convert.run_normalForm hτ hle n)
    simp only [if_true]
    rfl
  · cases hM.unique (.const l)
    rfl

theorem error (hs : Scoped D G tyScope scope K Γ n) (hτ : τ.normalize fuel = some τ')
    (hU : Denotes D .star τ' U) (hnormal : U.Normal) :
    IsNamed fuel D G tyScope scope K Γ n τ U .error := by
  obtain ⟨T, m, hrun, hle, hb, hT⟩ := hU.toNamed hs.tyFits
  refine ⟨.error T, m, fun fuel' hle => ?_, ⟨hle, hb, .error ?_ ?_⟩, fun G' _ _ hM => ?_⟩
  · apply Fresh.run_bind_ok (Convert.run_normalForm hτ hle n)
    apply Fresh.run_bind_ok hrun
    rfl
  · rw [hT]
    exact hU.kind?_named hs.kind
  · rw [hT]
    exact hnormal.normalForm.rename _
  · cases hM
    rw [Term.nameless, NamelessTerm.rename, hT]

end PosTerm.IsNamed

/-- A term that has a type is named, has the type by name, and stands for whatever the
term means. -/
theorem PosTerm.toNamed_spec {fuel : Nat} {D : List Kind} {G : List PosTy} {τ : PosTy}
    {t : PosTerm} (ht : t.hasType fuel D G τ = true) {u U : NamelessTy}
    (hu : Denotes D .star τ u) (hU : NormalForm u U) {tyScope : NameScope TyName}
    {scope : NameScope Name} {K : NameKinds} {Γ : NameTypes} {n : Int}
    (hs : Scoped D G tyScope scope K Γ n) :
    t.IsNamed fuel D G tyScope scope K Γ n τ U := by
  induction t generalizing D G τ u U tyScope scope K Γ n with
  | var i =>
    obtain ⟨τ', bound, hτ, hbound, hn⟩ := hasType_var.mp ht
    obtain ⟨hi, hG⟩ := Scope.find?_eq_some_iff.mp hbound
    exact .var hs hτ (hu.of_normalize hU hτ) hi hG hn
  | lam body ih =>
    obtain ⟨s, r, hτ, hbody⟩ := hasType_lam.mp ht
    have hnormal := hU.normal
    cases hu.of_normalize hU hτ with
    | arrow hS hR =>
      exact .lam hs hτ hS hnormal.1 fun l hl =>
        ih hbody hR hnormal.2.normalForm ((hs.push hS hnormal.1).mono hl)
  | app f t s ihf iht =>
    obtain ⟨τ', hτ, hk, hf, ht⟩ := hasType_app.mp ht
    obtain ⟨v, hv⟩ := Denotes.exists_of_hasKind hk
    obtain ⟨V, hV⟩ := NamelessTy.exists_normalForm hv.kind?_eq
    have hτ' := hu.of_normalize hU hτ
    exact .app hτ hv hV (ihf hf (hv.arrow hτ') (hV.arrow hU.normal.normalForm) hs)
      fun l hl => iht ht hv hV (hs.mono hl)
  | tyLam body ih =>
    obtain ⟨k, b, hτ, hbody⟩ := hasType_tyLam.mp ht
    have hnormal := hU.normal
    cases hu.of_normalize hU hτ with
    | all hB =>
      exact .tyLam hs hτ hB (ih hbody hB (NamelessTy.Normal.normalForm hnormal) (hs.pushTy k))
  | inst t b s k ih =>
    obtain ⟨τ', hτ, hkb, hks, hn, ht⟩ := hasType_inst.mp ht
    obtain ⟨b', hb'⟩ := Denotes.exists_of_hasKind hkb
    obtain ⟨v, hv⟩ := Denotes.exists_of_hasKind hks
    obtain ⟨B, hB⟩ := NamelessTy.exists_normalForm hb'.kind?_eq
    exact .inst hs hτ (hu.of_normalize hU hτ) hb' hB hv hn (ih ht hb'.all (hB.all k) hs)
  | const l =>
    have hτ := hasType_const.mp ht
    cases hu.of_normalize hU hτ
    exact .const hτ
  | error =>
    obtain ⟨τ', hτ⟩ := hasType_error.mp ht
    exact .error hs hτ (hu.of_normalize hU hτ) hU.normal

/-- A term that has a type is named, and has the type by name. -/
theorem PosTerm.toNamed_typed {fuel : Nat} {D : List Kind} {G : List PosTy} {τ : PosTy}
    {t : PosTerm} (ht : t.hasType fuel D G τ = true) {u U : NamelessTy}
    (hu : Denotes D .star τ u) (hU : NormalForm u U) {tyScope : NameScope TyName}
    {scope : NameScope Name} {K : NameKinds} {Γ : NameTypes} {n : Int}
    (hs : Scoped D G tyScope scope K Γ n) :
    ∃ t' m, (∀ fuel' ≥ fuel, (t.toNamed fuel' tyScope scope (some D) τ).run n = (.ok t', m)) ∧
      NamedTermSpec K Γ n (U.rename (.openWith tyScope.names)) t' m := by
  obtain ⟨t', m, hrun, hspec, _⟩ := toNamed_spec ht hu hU hs
  exact ⟨t', m, hrun, hspec⟩

/-- A closed term that a type has by position is named at every supply of uniques and
whatever the texts of the names are, and the type that is inferred for it is, up to bound
names, the normal form of the named type. -/
theorem a_named_member_has_its_type {fuel : Nat} {τ : PosTy} {t : PosTerm}
    (hτ : τ.hasKind [] .star = true) (ht : t.hasType fuel [] [] τ = true)
    (tyTexts texts : NameStream) (n p : Int) :
    ∃ t' m T q,
      (∀ fuel' ≥ fuel, (t.toNamedClosed fuel' tyTexts texts τ).run n = (.ok t', m)) ∧
      (τ.toNamedClosed tyTexts .star).run p = (.ok T, q) ∧
      ∃ d, ∀ fuel' ≥ d, ∀ m' ≥ m, ∀ q' ≥ q, ∃ S m'' N q'',
        (t'.inferType fuel' .default [] []).run m' = (.ok S, m'') ∧
        (T.normalize fuel').run q' = (some N, q'') ∧ S.alphaEq N = true := by
  obtain ⟨u, hu⟩ := Denotes.exists_of_hasKind hτ
  obtain ⟨U, hU⟩ := NamelessTy.exists_normalForm hu.kind?_eq
  obtain ⟨t', m, hrun, _, hb, htyped⟩ := PosTerm.toNamed_typed ht hu hU (.empty tyTexts texts n)
  obtain ⟨T, q, hrunT, hT⟩ := hu.toNamedClosed tyTexts p
  obtain ⟨d₁, h₁⟩ := htyped.exists_inferType (.empty t')
  obtain ⟨d₂, h₂⟩ := Ty.exists_normalize (hu.kind?_named_closed hT)
  refine ⟨t', m, T, q, hrun, hrunT, max d₁ d₂, ?_⟩
  intro fuel' hle m' hm q' hq
  obtain ⟨S, m'', hinfer, _, _, hS⟩ := h₁ fuel' (by omega) [] [] m' rfl nofun (hb.mono hm)
  obtain ⟨N, q'', hnormalize, _, _, hN⟩ := h₂ fuel' (by omega) T q' rfl (hT.below.mono hq)
  refine ⟨S, m'', N, q'', hinfer, hnormalize, Ty.alphaEq_iff.mpr ?_⟩
  rw [hT.nameless_eq] at hN
  rw [hS]
  exact (hU.rename _).unique hN

/-- An instance of the identity, at a type that first has to be normalized. -/
theorem a_named_instance_has_its_type :
    let unit : PosTy := .builtin .unit
    let τ : PosTy := .arrow (.app (.lam (.var 0)) unit .star) unit
    let t : PosTerm := .inst (.tyLam (.lam (.var 0))) (.arrow (.var 0) (.var 0)) unit .star
    τ.hasKind [] .star = true ∧ t.hasType 1 [] [] τ = true ∧ ∃ t' m T q,
      (∀ fuel' ≥ 1, (t.toNamedClosed fuel' (.ofStart "t") (.ofStart "x") τ).run 0 = (.ok t', m)) ∧
      (τ.toNamedClosed (.ofStart "t") .star).run 0 = (.ok T, q) ∧
      ∃ d, ∀ fuel' ≥ d, ∀ m' ≥ m, ∀ q' ≥ q, ∃ S m'' N q'',
        (t'.inferType fuel' .default [] []).run m' = (.ok S, m'') ∧
        (T.normalize fuel').run q' = (some N, q'') ∧ S.alphaEq N = true :=
  ⟨by decide, by decide, a_named_member_has_its_type (by decide) (by decide) _ _ 0 0⟩

end FomegaLab
