-- Which positional types have a kind, which are normal, and which positional
-- terms have a type. All three are read off the value in checking mode.
import FomegaLab.Positional.Reduce
import FomegaLab.Scope

namespace FomegaLab

namespace PosTy

/-- Whether a type has the kind `k` in a scope of kinds. -/
def hasKind : List Kind → Kind → PosTy → Bool
  | scope, k, .var index => Scope.find? scope index == some k
  | scope, k, .arrow argument result =>
    k == .star && argument.hasKind scope .star && result.hasKind scope .star
  | scope, k, .all kind body => k == .star && body.hasKind (kind :: scope) .star
  | _, k, .builtin _ => k == .star
  | scope, k, .lam body =>
    match k with
    | .arrow argument result => body.hasKind (argument :: scope) result
    | .star => false
  | scope, k, .app function argument kind =>
    function.hasKind scope (.arrow kind k) && argument.hasKind scope kind

/-- References into a scope are not negative, so the size is one. -/
theorem size_pos_of_hasKind {D : List Kind} {k : Kind} {t : PosTy} (h : t.hasKind D k = true) :
    1 ≤ t.size := by
  induction t generalizing D k with
  | var i =>
    simp only [hasKind, beq_iff_eq, Scope.find?_eq_some_iff] at h
    simp only [size]
    omega
  | builtin b => exact Int.le_refl 1
  | arrow s t ihs iht =>
    simp only [hasKind, Bool.and_eq_true] at h
    have := ihs h.1.2
    have := iht h.2
    simp only [size]
    omega
  | all j t ih =>
    simp only [hasKind, Bool.and_eq_true] at h
    have := ih h.2
    simp only [size]
    omega
  | lam t ih =>
    cases k with
    | star => cases h
    | arrow j k =>
      have := ih h
      simp only [size]
      omega
  | app f t j ihf iht =>
    simp only [hasKind, Bool.and_eq_true] at h
    have := ihf h.1
    have := iht h.2
    simp only [size]
    omega

mutual
/-- No redex anywhere. -/
def isNormal : PosTy → Bool
  | .var _ => true
  | .builtin _ => true
  | .arrow argument result => argument.isNormal && result.isNormal
  | .all _ body => body.isNormal
  | .lam body => body.isNormal
  | .app function argument _ => function.isNeutral && argument.isNormal

/-- A variable applied to normal types. -/
def isNeutral : PosTy → Bool
  | .var _ => true
  | .app function argument _ => function.isNeutral && argument.isNormal
  | _ => false
end

end PosTy

/-- Whether a term has the type `type`. Types are compared after normalization,
so a type that the fuel cannot normalize is nobody's type. -/
def PosTerm.hasType (fuel : Nat) :
    (kinds : List Kind) → (types : List PosTy) → (type : PosTy) → PosTerm → Bool
  | kinds, types, type, term =>
    match type.normalize fuel with
    | none => false
    | some type =>
      match term with
      | .var index =>
        match Scope.find? types index with
        | some bound => bound.normalize fuel == some type
        | none => false
      | .lam body =>
        match type with
        | .arrow argument result => body.hasType fuel kinds (argument :: types) result
        | _ => false
      | .app function argument argumentType =>
        argumentType.hasKind kinds .star
          && function.hasType fuel kinds types (.arrow argumentType type)
          && argument.hasType fuel kinds types argumentType
      | .tyLam body =>
        match type with
        | .all kind bodyType =>
          body.hasType fuel (kind :: kinds) (types.map fun t => t.shift 1 0) bodyType
        | _ => false
      | .inst term bodyType argumentType kind =>
        bodyType.hasKind (kind :: kinds) .star
          && argumentType.hasKind kinds kind
          && (bodyType.instantiate argumentType).normalize fuel == some type
          && term.hasType fuel kinds types (.all kind bodyType)
      | .const literal => type == .builtin literal.builtin
      | .error => true

/-- A type that the fuel cannot normalize is nobody's type. -/
theorem PosTerm.exists_normalize_of_hasType {fuel : Nat} {kinds : List Kind}
    {types : List PosTy} {type : PosTy} {t : PosTerm}
    (h : t.hasType fuel kinds types type = true) : ∃ type', type.normalize fuel = some type' := by
  rw [hasType] at h
  cases hn : type.normalize fuel with
  | none =>
    rw [hn] at h
    cases h
  | some type' => exact ⟨type', rfl⟩

end FomegaLab
