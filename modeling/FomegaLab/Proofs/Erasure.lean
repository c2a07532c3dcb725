-- The laws of erasure. It keeps the free names, takes equal terms to equal ones, does not
-- see what happens to the types, and takes the substitution of a closed term to
-- `UTerm.close`. Every untyped term is the erasure of a term.
import FomegaLab.Named.Close
import FomegaLab.Named.Subst
import FomegaLab.Proofs.Named.Nameless
import Mathlib.Tactic.SplitIfs

namespace FomegaLab

theorem Term.free_erase (t : Term) : t.erase.free = t.free := by
  induction t with
  | var | const | error => rfl
  | lam x _ _ ih => simp only [erase, UTerm.free, free, ih]
  | app _ _ ihf iha => simp only [erase, UTerm.free, free, ihf, iha]
  | tyLam _ _ _ ih => simp only [erase, UTerm.free, free, ih]
  | inst _ _ ih => simp only [erase, UTerm.free, free, ih]

/-- Erasing a term and making it nameless commute. -/
theorem Term.nameless_erase (t : Term) : t.erase.nameless = t.nameless.erase := by
  induction t with
  | var | const | error => rfl
  | lam x _ body ih =>
    simp only [erase, UTerm.nameless, nameless, NamelessTerm.erase, ih, NamelessUTerm.abstract,
      NamelessTerm.abstract, NamelessTerm.erase_rename]
  | app _ _ ihf iha =>
    simp only [erase, UTerm.nameless, nameless, NamelessTerm.erase, ihf, iha]
  | tyLam a _ body ih =>
    simp only [erase, UTerm.nameless, nameless, NamelessTerm.erase, ih, NamelessTerm.abstractTy,
      NamelessTerm.erase_rename, NamelessUTerm.rename_id]
  | inst _ _ ih => simp only [erase, UTerm.nameless, nameless, NamelessTerm.erase, ih]

/-! ## Equality up to bound names -/

/-- Without the binders of types the levels are others. It is enough that the binders of terms
are the same ones in the same order, since a nameless form does not mention levels. -/
theorem Term.erase_alphaEqIn {lefts rights : TermLevels} {lefts' rights' : Levels Name}
    {level level' : Nat} (htypes : Levels.Paired lefts.types rights.types level)
    (hterms : Levels.Paired lefts.terms rights.terms level)
    (herased : Levels.Paired lefts' rights' level')
    (hleft : lefts'.map Prod.fst = lefts.terms.map Prod.fst)
    (hright : rights'.map Prod.fst = rights.terms.map Prod.fst) {s t : Term}
    (h : s.alphaEqIn lefts rights level t = true) :
    s.erase.alphaEqIn lefts' rights' level' t.erase = true := by
  have heq := congrArg NamelessTerm.erase ((alphaEqIn_iff htypes hterms s t).mp h)
  rw [NamelessTerm.erase_rename, NamelessTerm.erase_rename, ← nameless_erase,
    ← nameless_erase] at heq
  rw [UTerm.alphaEqIn_iff herased, hleft, hright]
  exact heq

/-- Terms that are equal up to bound names have erasures that are, and a term and its erasure
have the same free names. -/
theorem Term.erasure_respects_bound_names_and_scope :
    (∀ s t : Term, s.alphaEq t = true → s.erase.alphaEq t.erase = true) ∧
    ∀ (t : Term) (x : Name), x ∈ t.erase.free ↔ x ∈ t.free := by
  constructor
  · intro s t h
    exact @erase_alphaEqIn .none .none [] [] 0 0 (.nil 0) (.nil 0) (.nil 0) rfl rfl s t h
  · intro t x
    rw [free_erase]

/-- On each side another binder hides the outermost one, type binders stand between the binders
of terms, and a free name has the text of a bound one. -/
theorem Term.erasure_respects_bound_names_and_scope_between_type_binders :
    let a : TyName := ⟨"a", 0⟩
    let b : TyName := ⟨"b", 1⟩
    let x : Name := ⟨"x", 2⟩
    let y : Name := ⟨"y", 3⟩
    let z : Name := ⟨"x", 4⟩
    let s : Term := .tyLam a .star (.lam x (.var a) (.tyLam a .star (.lam y (.var a)
      (.lam x (.var a) (.app (.app (.var x) (.var y)) (.inst (.var z) (.var a)))))))
    let t : Term := .tyLam b .star (.lam y (.var b) (.tyLam a .star (.lam y (.var a)
      (.lam x (.var a) (.app (.app (.var x) (.var y)) (.inst (.var z) (.var a)))))))
    s.alphaEq t = true ∧ s.erase.alphaEq t.erase = true ∧ z ∈ s.free ∧ z ∈ s.erase.free ∧
      x ∉ s.erase.free := by
  intro a b x y z s t
  have heq : s.alphaEq t = true := by decide
  have hz : z ∈ s.free := by decide
  have hx : x ∉ s.free := by decide
  obtain ⟨hsame, hfree⟩ := erasure_respects_bound_names_and_scope
  exact ⟨heq, hsame s t heq, hz, (hfree s z).mpr hz, fun h => hx ((hfree s x).mp h)⟩

/-! ## Substitution of types -/

theorem Term.size_substTypeWithin (n : Nat) (captured : List TyName) (a : TyName)
    (replacement : Ty) (t : Term) (k : Int) :
    (t.substTypeWithin n captured a replacement k).1.size = t.size := by
  induction n generalizing captured a replacement t k with
  | zero => rfl
  | succ n ih =>
    cases t with
    | var | const | error => rfl
    | lam | app | inst => simp [substTypeWithin, size, ih]
    | tyLam b kind body =>
      unfold substTypeWithin
      split_ifs <;> simp [size, ih]

theorem Term.erase_substTypeWithin (n : Nat) (captured : List TyName) (a : TyName)
    (replacement : Ty) (t : Term) (k : Int) :
    (t.substTypeWithin n captured a replacement k).1.erase = t.erase := by
  induction n generalizing captured a replacement t k with
  | zero => rfl
  | succ n ih =>
    cases t with
    | var | const | error => rfl
    | lam | app | inst => simp [substTypeWithin, erase, ih]
    | tyLam b kind body =>
      unfold substTypeWithin
      split_ifs <;> simp [erase, ih]

/-- Types leave no trace in the untyped term, and neither do the new names of their binders. -/
theorem Term.erase_substType (t : Term) (a : TyName) (replacement : Ty) (k : Int) :
    (t.substType a replacement k).1.erase = t.erase :=
  erase_substTypeWithin _ _ _ _ _ _

/-! ## Closing untyped terms -/

namespace UTerm

/-- An environment that leaves the free names of a term alone leaves the term alone. -/
theorem close_eq_self {env : Name → Option UTerm} {bound : List Name} {t : UTerm}
    (h : ∀ y ∈ t.free, y ∈ bound ∨ env y = none) : t.close env bound = t := by
  induction t generalizing bound with
  | var y =>
    rcases h y (by simp [free]) with hy | hy <;> simp [close, hy]
  | lam x body ih =>
    rw [close, ih]
    intro y hy
    by_cases hyx : y = x
    · exact Or.inl (by simp [hyx])
    · rcases h y (by simp [free, hy, hyx]) with hb | hn
      · exact Or.inl (by simp [hb])
      · exact Or.inr hn
  | app f a ihf iha =>
    rw [close, ihf, iha]
    · exact fun y hy => h y (by simp [free, hy])
    · exact fun y hy => h y (by simp [free, hy])
  | delay body ih => rw [close, ih h]
  | force t ih => rw [close, ih h]
  | const | error => rfl

theorem close_of_closed {env : Name → Option UTerm} {bound : List Name} {t : UTerm}
    (h : t.free = []) : t.close env bound = t :=
  close_eq_self (by simp [h])

/-- What stays free in a term after closing it: the free names that are bound
outside or that the environment does not know. -/
theorem mem_free_close {env : Name → Option UTerm} {bound : List Name} {t : UTerm} {y : Name}
    (henv : ∀ z u, env z = some u → u.free = []) (hy : y ∈ (t.close env bound).free) :
    y ∈ t.free ∧ (y ∈ bound ∨ env y = none) := by
  induction t generalizing bound with
  | var z =>
    unfold close at hy
    split_ifs at hy with hz
    · simp only [free, List.mem_singleton] at hy ⊢
      exact ⟨hy, Or.inl (hy ▸ hz)⟩
    · cases he : env z with
      | none =>
        simp only [he, Option.getD_none, free, List.mem_singleton] at hy ⊢
        exact ⟨hy, Or.inr (hy ▸ he)⟩
      | some u => simp [he, henv z u he] at hy
  | lam x body ih =>
    simp only [close, free, List.mem_filter, bne_iff_ne] at hy ⊢
    obtain ⟨hy, hyx⟩ := hy
    obtain ⟨hf, hb⟩ := ih hy
    refine ⟨⟨hf, hyx⟩, ?_⟩
    rcases hb with hb | hn
    · exact Or.inl ((List.mem_cons.mp hb).resolve_left hyx)
    · exact Or.inr hn
  | app f a ihf iha =>
    simp only [close, free, List.mem_append] at hy ⊢
    rcases hy with hy | hy
    · exact ⟨Or.inl (ihf hy).1, (ihf hy).2⟩
    · exact ⟨Or.inr (iha hy).1, (iha hy).2⟩
  | delay body ih => exact ih hy
  | force t ih => exact ih hy
  | const | error => simp [close, free] at hy

/-- The environment that knows one name. -/
def single (x : Name) (u : UTerm) : Name → Option UTerm :=
  fun y => if y = x then some u else none

/-- An environment with one more name than another. -/
def extend (env : Name → Option UTerm) (x : Name) (u : UTerm) : Name → Option UTerm :=
  fun y => if x = y then some u else env y

/-- Closing a body under its binder and then the binder itself is closing the body once. -/
theorem close_close_single {env : Name → Option UTerm} {x : Name} {u : UTerm}
    (henv : ∀ z w, env z = some w → w.free = []) (bound : List Name) (t : UTerm) :
    (t.close env (bound ++ [x])).close (single x u) bound = t.close (extend env x u) bound := by
  induction t generalizing bound with
  | var y =>
    by_cases hb : y ∈ bound
    · simp [close, hb]
    · by_cases hx : y = x
      · simp [close, hx, single, extend]
      · cases he : env y with
        | none => simp [close, hb, hx, Ne.symm hx, he, single, extend]
        | some w =>
          have hw : w.close (single x u) bound = w := close_of_closed (henv y w he)
          simp [close, hb, hx, Ne.symm hx, he, extend, hw]
  | lam y body ih => simp only [close, ← List.cons_append, ih]
  | app f a ihf iha => simp only [close, ihf, iha]
  | delay body ih => simp only [close, ih]
  | force t ih => simp only [close, ih]
  | const | error => rfl

end UTerm

/-! ## Substitution of closed terms -/

/-- A closed term is put in without new names, and its types are not seen. -/
theorem Term.erase_substWithin {capturedTypes : List TyName} {x : Name} {v : Term} {n : Nat}
    {t : Term} (hn : t.size ≤ n) {bound : List Name} (hx : x ∉ bound) (k : Int) :
    (substWithin n [] capturedTypes x v t k).1.erase =
      t.erase.close (UTerm.single x v.erase) bound := by
  induction n generalizing t bound k with
  | zero => cases t <;> simp [size] at hn
  | succ n ih =>
    cases t with
    | var y =>
      by_cases hy : y = x
      · simp [substWithin, erase, UTerm.close, UTerm.single, hy, hx]
      · by_cases hb : y ∈ bound <;> simp [substWithin, erase, UTerm.close, UTerm.single, hy, hb]
    | lam y type body =>
      by_cases hy : y = x
      · simp only [substWithin, hy, if_true, Fresh.pure_apply, erase, UTerm.close]
        rw [UTerm.close_eq_self]
        intro z _
        by_cases hz : z = x
        · exact Or.inl (by simp [hz])
        · exact Or.inr (by simp [UTerm.single, hz])
      · have hsize : body.size ≤ n := by simp only [size] at hn; omega
        have hxy : x ∉ y :: bound := by simp [hx, Ne.symm hy]
        simp [substWithin, hy, erase, UTerm.close, ih hsize hxy]
    | app f a =>
      simp only [size] at hn
      simp [substWithin, erase, UTerm.close, ih (t := f) (by omega) hx, ih (t := a) (by omega) hx]
    | tyLam b kind body =>
      have hsize : body.size ≤ n := by simp only [size] at hn; omega
      simp only [substWithin]
      split_ifs
      · have hrenamed := ih (t := (body.substType b (.var (NameSort.make b.text k)) (k + 1)).1)
          (by rw [substType, size_substTypeWithin]; exact hsize) hx
        simp [erase, UTerm.close, hrenamed, erase_substType]
      · simp [erase, UTerm.close, ih hsize hx]
    | inst t type =>
      simp only [size] at hn
      simp [substWithin, erase, UTerm.close, ih (t := t) (by omega) hx]
    | const | error => rfl

theorem Term.erase_subst {x : Name} {v : Term} (hv : v.free = []) (t : Term) (k : Int) :
    (t.subst x v k).1.erase = t.erase.close (UTerm.single x v.erase) [] := by
  rw [subst, hv]
  exact erase_substWithin (Nat.le_refl _) (by simp) k

/-! ## Terms for untyped terms -/

/-- A term that erases to the untyped one. No type in it has a name in it, and the name of
its type abstractions is used nowhere. -/
def UTerm.annotate : UTerm → Term
  | .var x => .var x
  | .lam x body => .lam x (.builtin .unit) body.annotate
  | .app function argument => .app function.annotate argument.annotate
  | .delay body => .tyLam ⟨"a", 0⟩ .star body.annotate
  | .force term => .inst term.annotate (.builtin .unit)
  | .const l => .const l
  | .error => .error (.builtin .unit)

def NamelessUTerm.annotate : NamelessUTerm → NamelessTerm
  | var r => .var r
  | lam body => .lam (.builtin .unit) body.annotate
  | app function argument => .app function.annotate argument.annotate
  | delay body => .tyLam .star body.annotate
  | force term => .inst term.annotate (.builtin .unit)
  | const l => .const l
  | error => .error (.builtin .unit)

theorem NamelessUTerm.annotate_rename (ρ : Ref TyName → Ref TyName) (τ : Ref Name → Ref Name)
    (t : NamelessUTerm) : t.annotate.rename ρ τ = (t.rename τ).annotate := by
  induction t generalizing ρ τ with
  | var | const | error => rfl
  | app f t ihf iht => simp only [annotate, rename, NamelessTerm.rename, ihf, iht]
  | lam t ih | delay t ih | force t ih =>
    simp only [annotate, rename, NamelessTerm.rename, NamelessTy.rename, ih]

namespace UTerm

theorem erase_annotate (t : UTerm) : t.annotate.erase = t := by
  induction t with
  | var | const | error => rfl
  | lam x body ih => rw [annotate, Term.erase, ih]
  | app f t ihf iht => rw [annotate, Term.erase, ihf, iht]
  | delay t ih | force t ih => rw [annotate, Term.erase, ih]

theorem nameless_annotate (t : UTerm) : t.annotate.nameless = t.nameless.annotate := by
  induction t with
  | var | const | error => rfl
  | lam x body ih =>
    simp only [annotate, Term.nameless, nameless, NamelessUTerm.annotate, ih,
      NamelessTerm.abstract, NamelessUTerm.abstract, NamelessUTerm.annotate_rename, Ty.nameless]
  | app f t ihf iht =>
    simp only [annotate, Term.nameless, nameless, NamelessUTerm.annotate, ihf, iht]
  | delay body ih =>
    simp only [annotate, Term.nameless, nameless, NamelessUTerm.annotate, ih,
      NamelessTerm.abstractTy, NamelessUTerm.annotate_rename, NamelessUTerm.rename_id]
  | force t ih =>
    simp only [annotate, Term.nameless, nameless, NamelessUTerm.annotate, ih, Ty.nameless]

end UTerm

end FomegaLab
