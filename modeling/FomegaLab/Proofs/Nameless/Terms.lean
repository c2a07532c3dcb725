-- Nameless terms. Term names and type names are bound separately, so a renaming of a
-- term is a pair: one for the references to types and one for those to terms. Untyped
-- terms have references to terms only.
import FomegaLab.Proofs.Nameless.Syntax

namespace FomegaLab

inductive NamelessTerm where
  | var (r : Ref Name)
  | lam (type : NamelessTy) (body : NamelessTerm)
  | app (function argument : NamelessTerm)
  | tyLam (kind : Kind) (body : NamelessTerm)
  | inst (term : NamelessTerm) (type : NamelessTy)
  | const (literal : Literal)
  | error (type : NamelessTy)
deriving DecidableEq

namespace NamelessTerm

/-- A binder is passed in the one renaming that it belongs to. -/
def rename (ρ : Ref TyName → Ref TyName) (τ : Ref Name → Ref Name) :
    NamelessTerm → NamelessTerm
  | var r => var (τ r)
  | lam type body => lam (type.rename ρ) (body.rename ρ (Ref.lift τ))
  | app function argument => app (function.rename ρ τ) (argument.rename ρ τ)
  | tyLam kind body => tyLam kind (body.rename (Ref.lift ρ) τ)
  | inst term type => inst (term.rename ρ τ) (type.rename ρ)
  | const l => const l
  | error type => error (type.rename ρ)

/-- Turns a free term name into the innermost term binder. -/
def abstract (body : NamelessTerm) (x : Name) : NamelessTerm := body.rename id (Ref.bind x)

/-- Turns a free type name into the innermost type binder. -/
def abstractTy (body : NamelessTerm) (a : TyName) : NamelessTerm := body.rename (Ref.bind a) id

theorem rename_id (t : NamelessTerm) : t.rename id id = t := by
  induction t with
  | var | const => rfl
  | lam type body ih => rw [rename, NamelessTy.rename_id, Ref.lift_id, ih]
  | app f t ihf iht => rw [rename, ihf, iht]
  | tyLam k body ih => rw [rename, Ref.lift_id, ih]
  | inst t type ih => rw [rename, ih, NamelessTy.rename_id]
  | error type => rw [rename, NamelessTy.rename_id]

theorem rename_rename (ρ ρ' : Ref TyName → Ref TyName) (τ τ' : Ref Name → Ref Name)
    (t : NamelessTerm) : (t.rename ρ τ).rename ρ' τ' = t.rename (ρ' ∘ ρ) (τ' ∘ τ) := by
  induction t generalizing ρ ρ' τ τ' with
  | var | const => rfl
  | lam type body ih => simp only [rename, NamelessTy.rename_rename, ih, Ref.lift_comp]
  | app f t ihf iht => simp only [rename, ihf, iht]
  | tyLam k body ih => simp only [rename, ih, Ref.lift_comp]
  | inst t type ih => simp only [rename, ih, NamelessTy.rename_rename]
  | error type => simp only [rename, NamelessTy.rename_rename]

/-- Renaming around a term binder, once its name is bound. -/
theorem abstract_rename (t : NamelessTerm) (x : Name) (ρ : Ref TyName → Ref TyName)
    (τ : Ref Name → Ref Name) :
    (t.abstract x).rename ρ (Ref.lift τ) = t.rename ρ (Ref.lift τ ∘ Ref.bind x) :=
  rename_rename _ _ _ _ t

/-- Renaming around a type binder, once its name is bound. -/
theorem abstractTy_rename (t : NamelessTerm) (a : TyName) (ρ : Ref TyName → Ref TyName)
    (τ : Ref Name → Ref Name) :
    (t.abstractTy a).rename (Ref.lift ρ) τ = t.rename (Ref.lift ρ ∘ Ref.bind a) τ :=
  rename_rename _ _ _ _ t

end NamelessTerm

/-! ## Untyped terms -/

inductive NamelessUTerm where
  | var (r : Ref Name)
  | lam (body : NamelessUTerm)
  | app (function argument : NamelessUTerm)
  | delay (body : NamelessUTerm)
  | force (term : NamelessUTerm)
  | const (literal : Literal)
  | error
deriving DecidableEq

namespace NamelessUTerm

def rename (τ : Ref Name → Ref Name) : NamelessUTerm → NamelessUTerm
  | var r => var (τ r)
  | lam body => lam (body.rename (Ref.lift τ))
  | app function argument => app (function.rename τ) (argument.rename τ)
  | delay body => delay (body.rename τ)
  | force term => force (term.rename τ)
  | const l => const l
  | error => error

/-- Turns a free name into the innermost binder. -/
def abstract (body : NamelessUTerm) (x : Name) : NamelessUTerm := body.rename (Ref.bind x)

theorem rename_id (t : NamelessUTerm) : t.rename id = t := by
  induction t with
  | var | const | error => rfl
  | lam body ih => rw [rename, Ref.lift_id, ih]
  | app f t ihf iht => rw [rename, ihf, iht]
  | delay t ih | force t ih => rw [rename, ih]

theorem rename_rename (τ τ' : Ref Name → Ref Name) (t : NamelessUTerm) :
    (t.rename τ).rename τ' = t.rename (τ' ∘ τ) := by
  induction t generalizing τ τ' with
  | var | const | error => rfl
  | lam body ih => simp only [rename, ih, Ref.lift_comp]
  | app f t ihf iht => simp only [rename, ihf, iht]
  | delay t ih | force t ih => simp only [rename, ih]

/-- Renaming around a binder, once its name is bound. -/
theorem abstract_rename (t : NamelessUTerm) (x : Name) (τ : Ref Name → Ref Name) :
    (t.abstract x).rename (Ref.lift τ) = t.rename (Ref.lift τ ∘ Ref.bind x) :=
  rename_rename _ _ t

end NamelessUTerm

namespace NamelessTerm

/-- Drops every type and kind, as erasure of named terms does. -/
def erase : NamelessTerm → NamelessUTerm
  | var r => .var r
  | lam _ body => .lam body.erase
  | app function argument => .app function.erase argument.erase
  | tyLam _ body => .delay body.erase
  | inst term _ => .force term.erase
  | const l => .const l
  | error _ => .error

/-- Erasure does not see what happens to the types. -/
theorem erase_rename (ρ : Ref TyName → Ref TyName) (τ : Ref Name → Ref Name) (t : NamelessTerm) :
    (t.rename ρ τ).erase = t.erase.rename τ := by
  induction t generalizing ρ τ with
  | var | const | error => rfl
  | app f t ihf iht => simp only [rename, erase, NamelessUTerm.rename, ihf, iht]
  | lam type body ih | tyLam k body ih | inst t type ih =>
    simp only [rename, erase, NamelessUTerm.rename, ih]

end NamelessTerm

end FomegaLab
