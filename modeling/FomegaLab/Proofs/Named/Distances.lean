-- Named syntax with distances for bound names. An occurrence counts the binders between itself
-- and the nearest binder of its name; binders of types and binders of terms are counted apart.
-- The main statement: values are equal up to bound names exactly if they are the same with
-- distances, so this equality is an equivalence, also where one binder hides another.
import FomegaLab.Proofs.Named.Nameless

namespace FomegaLab

/-! ## Distances -/

/-- What a name stands for under binders, innermost first: the nearest one that has the name,
or itself. -/
def Ref.resolve {ν : Type} [DecidableEq ν] (binders : List ν) (a : ν) : Ref ν :=
  match binders.idxOf? a with
  | some i => .bound i
  | none => .free a

def Ty.withDistances (binders : List TyName) : Ty → NamelessTy
  | .var a => .var (Ref.resolve binders a)
  | .arrow argument result =>
    .arrow (argument.withDistances binders) (result.withDistances binders)
  | .all a k body => .all k (body.withDistances (a :: binders))
  | .lam a k body => .lam k (body.withDistances (a :: binders))
  | .app function argument =>
    .app (function.withDistances binders) (argument.withDistances binders)
  | .builtin b => .builtin b

/-- A binder of one sort adds nothing to the distances of the other. -/
def Term.withDistances (tyBinders : List TyName) (binders : List Name) : Term → NamelessTerm
  | .var x => .var (Ref.resolve binders x)
  | .lam x type body =>
    .lam (type.withDistances tyBinders) (body.withDistances tyBinders (x :: binders))
  | .app function argument =>
    .app (function.withDistances tyBinders binders) (argument.withDistances tyBinders binders)
  | .tyLam a k body => .tyLam k (body.withDistances (a :: tyBinders) binders)
  | .inst term type =>
    .inst (term.withDistances tyBinders binders) (type.withDistances tyBinders)
  | .const l => .const l
  | .error type => .error (type.withDistances tyBinders)

def UTerm.withDistances (binders : List Name) : UTerm → NamelessUTerm
  | .var x => .var (Ref.resolve binders x)
  | .lam x body => .lam (body.withDistances (x :: binders))
  | .app function argument =>
    .app (function.withDistances binders) (argument.withDistances binders)
  | .delay body => .delay (body.withDistances binders)
  | .force term => .force (term.withDistances binders)
  | .const l => .const l
  | .error => .error

/-! ## Distances and nameless forms -/

/-- Binding the names from the outside in leaves each occurrence to its nearest binder. -/
theorem Ref.bindAll_free {ν : Type} [DecidableEq ν] (binders : List ν) (a : ν) :
    bindAll binders (free a) = resolve binders a := by
  induction binders with
  | nil => rfl
  | cons b binders ih =>
    unfold bindAll
    rw [Function.comp_apply]
    by_cases hab : a = b
    · subst hab
      simp [resolve, List.idxOf?_cons]
    · rw [bind_of_ne (by simpa using hab), lift_succ, ih]
      have hba : (b == a) = false := by simpa using Ne.symm hab
      unfold resolve
      rw [List.idxOf?_cons, hba]
      cases binders.idxOf? a <;> rfl

theorem Ty.withDistances_eq (binders : List TyName) (t : Ty) :
    t.withDistances binders = t.nameless.rename (Ref.bindAll binders) := by
  induction t generalizing binders with
  | var a => simp [withDistances, nameless, NamelessTy.rename, Ref.bindAll_free]
  | builtin b => rfl
  | arrow s t ihs iht | app s t ihs iht =>
    simp [withDistances, nameless, NamelessTy.rename, ihs, iht]
  | all a k body ih | lam a k body ih =>
    simp [withDistances, nameless, NamelessTy.rename, NamelessTy.abstract_rename_lift, ih]

theorem Term.withDistances_eq (tyBinders : List TyName) (binders : List Name) (t : Term) :
    t.withDistances tyBinders binders =
      t.nameless.rename (Ref.bindAll tyBinders) (Ref.bindAll binders) := by
  induction t generalizing tyBinders binders with
  | var x => simp [withDistances, nameless, NamelessTerm.rename, Ref.bindAll_free]
  | const l => rfl
  | error type => simp [withDistances, nameless, NamelessTerm.rename, Ty.withDistances_eq]
  | app f t ihf iht => simp [withDistances, nameless, NamelessTerm.rename, ihf, iht]
  | inst t type ih =>
    simp [withDistances, nameless, NamelessTerm.rename, Ty.withDistances_eq, ih]
  | lam x type body ih =>
    simp [withDistances, nameless, NamelessTerm.rename, Ty.withDistances_eq, ih,
      NamelessTerm.abstract_rename, Ref.bindAll]
  | tyLam a k body ih =>
    simp [withDistances, nameless, NamelessTerm.rename, ih, NamelessTerm.abstractTy_rename,
      Ref.bindAll]

theorem UTerm.withDistances_eq (binders : List Name) (t : UTerm) :
    t.withDistances binders = t.nameless.rename (Ref.bindAll binders) := by
  induction t generalizing binders with
  | var x => simp [withDistances, nameless, NamelessUTerm.rename, Ref.bindAll_free]
  | const | error => rfl
  | app f t ihf iht => simp [withDistances, nameless, NamelessUTerm.rename, ihf, iht]
  | delay t ih | force t ih => simp [withDistances, nameless, NamelessUTerm.rename, ih]
  | lam x body ih =>
    simp [withDistances, nameless, NamelessUTerm.rename, ih, NamelessUTerm.abstract_rename,
      Ref.bindAll]

/-! ## Equality up to bound names -/

theorem equivalence_of_iff_eq {α β : Type} {same : α → α → Bool} {form : α → β}
    (h : ∀ a b, same a b = true ↔ form a = form b) :
    Equivalence fun a b => same a b = true := by
  refine ⟨fun a => (h a a).mpr rfl, fun {a b} hab => ?_, fun {a b c} hab hbc => ?_⟩
  · exact (h b a).mpr ((h a b).mp hab).symm
  · exact (h a c).mpr (((h a b).mp hab).trans ((h b c).mp hbc))

/-- Equality of types, of terms and of untyped terms is equality with distances for the bound
names. So it is reflexive, symmetric and transitive. -/
theorem equality_is_equality_of_distances :
    (∀ s t : Ty, s.alphaEq t = true ↔ s.withDistances [] = t.withDistances []) ∧
    (∀ s t : Term, s.alphaEq t = true ↔ s.withDistances [] [] = t.withDistances [] []) ∧
    (∀ s t : UTerm, s.alphaEq t = true ↔ s.withDistances [] = t.withDistances []) ∧
    Equivalence (fun s t : Ty => s.alphaEq t = true) ∧
    Equivalence (fun s t : Term => s.alphaEq t = true) ∧
    Equivalence (fun s t : UTerm => s.alphaEq t = true) := by
  have htypes : ∀ s t : Ty, s.alphaEq t = true ↔ s.withDistances [] = t.withDistances [] := by
    intro s t
    rw [Ty.withDistances_eq, Ty.withDistances_eq, Ref.bindAll, NamelessTy.rename_id,
      NamelessTy.rename_id]
    exact Ty.alphaEq_iff
  have hterms : ∀ s t : Term,
      s.alphaEq t = true ↔ s.withDistances [] [] = t.withDistances [] [] := by
    intro s t
    rw [Term.withDistances_eq, Term.withDistances_eq, Ref.bindAll, Ref.bindAll,
      NamelessTerm.rename_id, NamelessTerm.rename_id]
    exact Term.alphaEq_iff
  have huntyped : ∀ s t : UTerm,
      s.alphaEq t = true ↔ s.withDistances [] = t.withDistances [] := by
    intro s t
    rw [UTerm.withDistances_eq, UTerm.withDistances_eq, Ref.bindAll, NamelessUTerm.rename_id,
      NamelessUTerm.rename_id]
    exact UTerm.alphaEq_iff
  exact ⟨htypes, hterms, huntyped, equivalence_of_iff_eq htypes, equivalence_of_iff_eq hterms,
    equivalence_of_iff_eq huntyped⟩

/-- The inner binder hides the outer one of its name. A term whose variable belongs to the
outer binder is another one. -/
example :
    let x : Name := ⟨"x", 0⟩
    let y : Name := ⟨"y", 1⟩
    let hidden : UTerm := .lam x (.lam x (.app (.var x) (.var y)))
    hidden.withDistances [] = .lam (.lam (.app (.var (.bound 0)) (.var (.free y)))) ∧
      hidden.alphaEq (.lam y (.lam x (.app (.var y) (.var y)))) = false ∧
      hidden.alphaEq (.lam ⟨"z", 2⟩ (.lam x (.app (.var x) (.var y)))) = true := by
  decide

end FomegaLab
