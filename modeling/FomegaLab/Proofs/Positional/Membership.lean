-- What it takes for a positional term to have a type, constructor by constructor. The
-- check takes fuel for the types that it normalizes: more fuel accepts no fewer terms,
-- so a term has a type as soon as some fuel says so.
import FomegaLab.Positional.Member
import FomegaLab.Proofs.Positional.Steps

namespace FomegaLab.PosTerm

variable {fuel : Nat} {D : List Kind} {G : List PosTy} {τ : PosTy}

/-! ## Constructor by constructor -/

theorem hasType_var {i : Int} : (var i).hasType fuel D G τ = true ↔
    ∃ τ' bound, τ.normalize fuel = some τ' ∧ Scope.find? G i = some bound ∧
      bound.normalize fuel = some τ' := by
  rw [hasType]
  cases τ.normalize fuel with
  | none => simp
  | some τ' => cases hG : Scope.find? G i <;> simp [hG]

theorem hasType_lam {body : PosTerm} : (lam body).hasType fuel D G τ = true ↔
    ∃ s r, τ.normalize fuel = some (.arrow s r) ∧ body.hasType fuel D (s :: G) r = true := by
  rw [hasType]
  cases τ.normalize fuel with
  | none => simp
  | some τ' => cases τ' <;> simp [and_assoc]

theorem hasType_app {f t : PosTerm} {s : PosTy} : (app f t s).hasType fuel D G τ = true ↔
    ∃ τ', τ.normalize fuel = some τ' ∧ s.hasKind D .star = true ∧
      f.hasType fuel D G (.arrow s τ') = true ∧ t.hasType fuel D G s = true := by
  rw [hasType]
  cases τ.normalize fuel <;> simp [and_assoc]

theorem hasType_tyLam {body : PosTerm} : (tyLam body).hasType fuel D G τ = true ↔
    ∃ k b, τ.normalize fuel = some (.all k b) ∧
      body.hasType fuel (k :: D) (G.map fun s => s.shift 1 0) b = true := by
  rw [hasType]
  cases τ.normalize fuel with
  | none => simp
  | some τ' => cases τ' <;> simp [and_assoc]

theorem hasType_inst {t : PosTerm} {b s : PosTy} {k : Kind} :
    (inst t b s k).hasType fuel D G τ = true ↔
      ∃ τ', τ.normalize fuel = some τ' ∧ b.hasKind (k :: D) .star = true ∧
        s.hasKind D k = true ∧ (b.instantiate s).normalize fuel = some τ' ∧
        t.hasType fuel D G (.all k b) = true := by
  rw [hasType]
  cases τ.normalize fuel <;> simp [and_assoc]

theorem hasType_const {l : Literal} : (const l).hasType fuel D G τ = true ↔
    τ.normalize fuel = some (.builtin l.builtin) := by
  rw [hasType]
  cases τ.normalize fuel <;> simp

theorem hasType_error : (error).hasType fuel D G τ = true ↔ ∃ τ', τ.normalize fuel = some τ' := by
  refine ⟨exists_normalize_of_hasType, ?_⟩
  rintro ⟨τ', h⟩
  rw [hasType, h]

/-! ## More fuel, and no fuel -/

/-- More fuel keeps a member. -/
theorem hasType_mono {fuel' : Nat} (hle : fuel ≤ fuel') {t : PosTerm}
    (h : t.hasType fuel D G τ = true) : t.hasType fuel' D G τ = true := by
  have hn : ∀ {s s' : PosTy}, s.normalize fuel = some s' → s.normalize fuel' = some s' :=
    PosTy.normalize_mono hle
  induction t generalizing D G τ with
  | var i =>
    obtain ⟨τ', bound, hτ, hG, hbound⟩ := hasType_var.mp h
    exact hasType_var.mpr ⟨τ', bound, hn hτ, hG, hn hbound⟩
  | lam body ih =>
    obtain ⟨s, r, hτ, hbody⟩ := hasType_lam.mp h
    exact hasType_lam.mpr ⟨s, r, hn hτ, ih hbody⟩
  | app f t s ihf iht =>
    obtain ⟨τ', hτ, hs, hf, ht⟩ := hasType_app.mp h
    exact hasType_app.mpr ⟨τ', hn hτ, hs, ihf hf, iht ht⟩
  | tyLam body ih =>
    obtain ⟨k, b, hτ, hbody⟩ := hasType_tyLam.mp h
    exact hasType_tyLam.mpr ⟨k, b, hn hτ, ih hbody⟩
  | inst t b s k ih =>
    obtain ⟨τ', hτ, hb, hs, hinst, ht⟩ := hasType_inst.mp h
    exact hasType_inst.mpr ⟨τ', hn hτ, hb, hs, hn hinst, ih ht⟩
  | const l => exact hasType_const.mpr (hn (hasType_const.mp h))
  | error =>
    obtain ⟨τ', hτ⟩ := hasType_error.mp h
    exact hasType_error.mpr ⟨τ', hn hτ⟩

/-- A term has a type if the check says so at some fuel. -/
def Typed (D : List Kind) (G : List PosTy) (τ : PosTy) (t : PosTerm) : Prop :=
  ∃ fuel, t.hasType fuel D G τ = true

/-- Only the normal form of a type counts. -/
theorem hasType_normalize {τ' : PosTy} (h : τ.normalize fuel = some τ') (t : PosTerm) :
    t.hasType fuel D G τ = t.hasType fuel D G τ' := by
  have h' := PosTy.normalize_eq_self fuel (PosTy.step_eq_none_of_normalize h)
  rw [Bool.eq_iff_iff]
  cases t with
  | var i => rw [hasType_var, hasType_var, h, h']
  | lam body => rw [hasType_lam, hasType_lam, h, h']
  | app f t s => rw [hasType_app, hasType_app, h, h']
  | tyLam body => rw [hasType_tyLam, hasType_tyLam, h, h']
  | inst t b s k => rw [hasType_inst, hasType_inst, h, h']
  | const l => rw [hasType_const, hasType_const, h, h']
  | error => rw [hasType_error, hasType_error, h, h']

theorem typed_normalize {d : Nat} {τ' : PosTy} (h : ∀ fuel ≥ d, τ.normalize fuel = some τ')
    {t : PosTerm} : t.Typed D G τ ↔ t.Typed D G τ' := by
  constructor
  · rintro ⟨fuel, ht⟩
    refine ⟨max d fuel, ?_⟩
    rw [← hasType_normalize (h _ (Nat.le_max_left d fuel))]
    exact hasType_mono (Nat.le_max_right d fuel) ht
  · rintro ⟨fuel, ht⟩
    refine ⟨max d fuel, ?_⟩
    rw [hasType_normalize (h _ (Nat.le_max_left d fuel))]
    exact hasType_mono (Nat.le_max_right d fuel) ht

theorem size_pos_of_hasType {t : PosTerm} (h : t.hasType fuel D G τ = true) : 1 ≤ t.size := by
  induction t generalizing D G τ with
  | var i =>
    obtain ⟨_, _, _, hG, _⟩ := hasType_var.mp h
    have := (Scope.find?_eq_some_iff.mp hG).1
    rw [size]
    omega
  | lam body ih =>
    obtain ⟨_, _, _, hbody⟩ := hasType_lam.mp h
    have := ih hbody
    rw [size]
    omega
  | app f t s ihf iht =>
    obtain ⟨_, _, hs, hf, ht⟩ := hasType_app.mp h
    have := PosTy.size_pos_of_hasKind hs
    have := ihf hf
    have := iht ht
    rw [size]
    omega
  | tyLam body ih =>
    obtain ⟨_, _, _, hbody⟩ := hasType_tyLam.mp h
    have := ih hbody
    rw [size]
    omega
  | inst t b s k ih =>
    obtain ⟨_, _, hb, hs, _, ht⟩ := hasType_inst.mp h
    have := PosTy.size_pos_of_hasKind hb
    have := PosTy.size_pos_of_hasKind hs
    have := ih ht
    rw [size]
    omega
  | const | error => exact Int.le_refl 1

/-! ## What a term carries -/

/-- The types that a term carries. -/
def types : PosTerm → List PosTy
  | var _ => []
  | lam body => body.types
  | app function argument argumentType =>
    argumentType :: (function.types ++ argument.types)
  | tyLam body => body.types
  | inst term bodyType argumentType _ => bodyType :: argumentType :: term.types
  | const _ => []
  | error => []

def literals : PosTerm → List Literal
  | var _ => []
  | lam body => body.literals
  | app function argument _ => function.literals ++ argument.literals
  | tyLam body => body.literals
  | inst term _ _ _ => term.literals
  | const literal => [literal]
  | error => []

/-- The types that the term carries are normal, and its literals are among those that
their builtin types list. -/
structure IsCanonical (t : PosTerm) : Prop where
  types : ∀ s ∈ t.types, s.step = none
  literals : ∀ l ∈ t.literals, l.isCanonical = true

theorem isCanonical_app {f t : PosTerm} {s : PosTy} :
    (app f t s).IsCanonical ↔ s.step = none ∧ f.IsCanonical ∧ t.IsCanonical := by
  constructor
  · rintro ⟨htypes, hliterals⟩
    simp only [PosTerm.types, PosTerm.literals, List.forall_mem_cons, List.forall_mem_append]
      at htypes hliterals
    exact ⟨htypes.1, ⟨htypes.2.1, hliterals.1⟩, ⟨htypes.2.2, hliterals.2⟩⟩
  · rintro ⟨hs, hf, ht⟩
    constructor
    · simp only [PosTerm.types, List.forall_mem_cons, List.forall_mem_append]
      exact ⟨hs, hf.types, ht.types⟩
    · simp only [PosTerm.literals, List.forall_mem_append]
      exact ⟨hf.literals, ht.literals⟩

theorem isCanonical_inst {t : PosTerm} {b s : PosTy} {k : Kind} :
    (inst t b s k).IsCanonical ↔ b.step = none ∧ s.step = none ∧ t.IsCanonical := by
  constructor
  · rintro ⟨htypes, hliterals⟩
    simp only [PosTerm.types, List.forall_mem_cons] at htypes
    exact ⟨htypes.1, htypes.2.1, htypes.2.2, hliterals⟩
  · rintro ⟨hb, hs, ht⟩
    constructor
    · simp only [PosTerm.types, List.forall_mem_cons]
      exact ⟨hb, hs, ht.types⟩
    · exact ht.literals

theorem isCanonical_lam {body : PosTerm} : (lam body).IsCanonical ↔ body.IsCanonical :=
  ⟨fun h => ⟨h.types, h.literals⟩, fun h => ⟨h.types, h.literals⟩⟩

theorem isCanonical_tyLam {body : PosTerm} : (tyLam body).IsCanonical ↔ body.IsCanonical :=
  ⟨fun h => ⟨h.types, h.literals⟩, fun h => ⟨h.types, h.literals⟩⟩

theorem isCanonical_const {l : Literal} : (const l).IsCanonical ↔ l.isCanonical = true :=
  ⟨fun h => h.literals l (List.mem_singleton_self l),
    fun h => ⟨nofun, fun _ hl => (List.mem_singleton.mp hl) ▸ h⟩⟩

theorem isCanonical_var (i : Int) : (var i).IsCanonical := ⟨nofun, nofun⟩

theorem isCanonical_error : (error).IsCanonical := ⟨nofun, nofun⟩

end FomegaLab.PosTerm
