-- The nameless form of a named type or term, typed or untyped: each binder takes the
-- occurrences of its name in the body that no inner binder took. The main statements: two
-- types, or two terms, are equal up to bound names exactly if their nameless forms coincide.
import FomegaLab.Named.Alpha
import FomegaLab.Named.Free
import FomegaLab.Proofs.Nameless.Occurrence
import FomegaLab.Proofs.Nameless.Terms

namespace FomegaLab

def Ty.nameless : Ty → NamelessTy
  | .var a => .var (.free a)
  | .arrow argument result => .arrow argument.nameless result.nameless
  | .all a k body => .all k (body.nameless.abstract a)
  | .lam a k body => .lam k (body.nameless.abstract a)
  | .app function argument => .app function.nameless argument.nameless
  | .builtin b => .builtin b

namespace Ty

theorem mem_free {t : Ty} {a : TyName} : a ∈ t.free ↔ t.nameless.Occurs (.free a) := by
  induction t with
  | var b => simp [free, nameless, NamelessTy.Occurs, eq_comm]
  | builtin b => simp [free, nameless, NamelessTy.Occurs]
  | arrow s t ihs iht | app s t ihs iht => simp [free, nameless, NamelessTy.Occurs, ihs, iht]
  | all b k body ih | lam b k body ih =>
    have hab := NamelessTy.occurs_abstract (t := body.nameless) (a := b) (r := .free a)
    simp only [free, List.mem_filter, bne_iff_ne, ih, nameless, NamelessTy.Occurs, hab, ne_eq,
      Ref.free.injEq]

/-- A nameless form refers to its own binders and to free names only. -/
theorem not_occurs_bound (t : Ty) (i : Nat) : ¬ t.nameless.Occurs (.bound i) := by
  induction t generalizing i with
  | var b => simp [nameless, NamelessTy.Occurs]
  | builtin b => exact id
  | arrow s t ihs iht | app s t ihs iht => exact fun h => h.elim (ihs i) (iht i)
  | all b k body ih | lam b k body ih => exact fun h => ih i (NamelessTy.occurs_abstract.mp h).1

theorem exists_free_of_occurs {t : Ty} {r : Ref TyName} (h : t.nameless.Occurs r) :
    ∃ a, r = .free a := by
  cases r with
  | free a => exact ⟨a, rfl⟩
  | bound i => exact absurd h (not_occurs_bound t i)

end Ty

/-! ## Equality up to bound names -/

/-- Makes free names the innermost binders, the first one innermost. -/
def Ref.bindAll {ν : Type} [DecidableEq ν] : List ν → Ref ν → Ref ν
  | [] => id
  | a :: names => Ref.lift (bindAll names) ∘ Ref.bind a

namespace Levels

variable {ν : Type}

/-- The binders of two sides, taken together in pairs of one level. All levels are
below the last argument. -/
inductive Paired : Levels ν → Levels ν → Nat → Prop
  | nil (level : Nat) : Paired [] [] level
  | cons {lefts rights : Levels ν} {l level : Nat} (a b : ν) (h : Paired lefts rights l)
      (hl : l < level) : Paired ((a, l) :: lefts) ((b, l) :: rights) level

theorem Paired.mono {lefts rights : Levels ν} {level level' : Nat}
    (h : Paired lefts rights level) (hle : level ≤ level') : Paired lefts rights level' := by
  cases h with
  | nil => exact .nil level'
  | cons a b h hl => exact .cons a b h (Nat.lt_of_lt_of_le hl hle)

theorem Paired.push {lefts rights : Levels ν} {level : Nat} (h : Paired lefts rights level)
    (a b : ν) : Paired ((a, level) :: lefts) ((b, level) :: rights) (level + 1) :=
  .cons a b h (Nat.lt_succ_self level)

variable [DecidableEq ν]

theorem Paired.lookup_lt {lefts rights : Levels ν} {level : Nat} (h : Paired lefts rights level)
    (x : ν) : (∀ i, lefts.lookup x = some i → i < level) ∧
      ∀ i, rights.lookup x = some i → i < level := by
  induction h with
  | nil => simp
  | @cons lefts rights l level a b _ hl ih =>
    simp only [List.lookup_cons]
    constructor
    · intro i hi
      split at hi
      · cases hi
        exact hl
      · exact Nat.lt_trans (ih.1 i hi) hl
    · intro i hi
      split at hi
      · cases hi
        exact hl
      · exact Nat.lt_trans (ih.2 i hi) hl

theorem Paired.agree_iff {lefts rights : Levels ν} {level : Nat} (h : Paired lefts rights level)
    (x y : ν) : lefts.agree rights x y = true ↔
      Ref.bindAll (lefts.map Prod.fst) (.free x) = Ref.bindAll (rights.map Prod.fst) (.free y) := by
  induction h with
  | nil => simp [agree, Ref.bindAll]
  | @cons lefts rights l level a b h hl ih =>
    simp only [List.map_cons, Ref.bindAll, Function.comp_apply]
    by_cases hx : x = a <;> by_cases hy : y = b
    · simp [hx, hy, agree]
    · have hlt := (h.lookup_lt y).2
      have hyb : (y == b) = false := by simp [hy]
      rw [hx, Ref.bind_self, Ref.bind_of_ne (by simpa using hy)]
      simp only [Ref.lift_zero, Ref.lift_succ, Ref.zero_ne_succ, iff_false, agree,
        List.lookup_cons, hyb, beq_self_eq_true]
      cases hj : rights.lookup y with
      | none => simp
      | some j => simpa using Nat.ne_of_gt (hlt j hj)
    · have hlt := (h.lookup_lt x).1
      have hxa : (x == a) = false := by simp [hx]
      rw [hy, Ref.bind_self, Ref.bind_of_ne (by simpa using hx)]
      simp only [Ref.lift_zero, Ref.lift_succ, Ref.succ_ne_zero, iff_false, agree,
        List.lookup_cons, hxa, beq_self_eq_true]
      cases hi : lefts.lookup x with
      | none => simp
      | some i => simpa using Nat.ne_of_lt (hlt i hi)
    · have hxa : (x == a) = false := by simp [hx]
      have hyb : (y == b) = false := by simp [hy]
      rw [Ref.bind_of_ne (by simpa using hx), Ref.bind_of_ne (by simpa using hy), Ref.lift_succ,
        Ref.lift_succ, Ref.succ_inj, ← ih]
      simp only [agree, List.lookup_cons, hxa, hyb]

end Levels

theorem NamelessTy.abstract_rename_lift (t : NamelessTy) (a : TyName) (names : List TyName) :
    (t.abstract a).rename (Ref.lift (Ref.bindAll names)) = t.rename (Ref.bindAll (a :: names)) :=
  rename_rename _ _ t

theorem Ty.alphaEqIn_iff {lefts rights : Levels TyName} {level : Nat}
    (h : Levels.Paired lefts rights level) (s t : Ty) :
    s.alphaEqIn lefts rights level t = true ↔
      s.nameless.rename (Ref.bindAll (lefts.map Prod.fst)) =
        t.nameless.rename (Ref.bindAll (rights.map Prod.fst)) := by
  induction s generalizing t lefts rights level with
  | var a =>
    cases t with
    | var b => simp only [alphaEqIn, nameless, NamelessTy.rename, NamelessTy.var.injEq, h.agree_iff]
    | _ => simp [alphaEqIn, nameless, NamelessTy.rename]
  | builtin b => cases t <;> simp [alphaEqIn, nameless, NamelessTy.rename]
  | arrow s s' ihs ihs' =>
    cases t with
    | arrow t t' => simp [alphaEqIn, nameless, NamelessTy.rename, ihs h, ihs' h]
    | _ => simp [alphaEqIn, nameless, NamelessTy.rename]
  | app s s' ihs ihs' =>
    cases t with
    | app t t' => simp [alphaEqIn, nameless, NamelessTy.rename, ihs h, ihs' h]
    | _ => simp [alphaEqIn, nameless, NamelessTy.rename]
  | all a k body ih =>
    cases t with
    | all b j body' =>
      simp [alphaEqIn, nameless, NamelessTy.rename, NamelessTy.abstract_rename_lift,
        ih (h.push a b)]
    | _ => simp [alphaEqIn, nameless, NamelessTy.rename]
  | lam a k body ih =>
    cases t with
    | lam b j body' =>
      simp [alphaEqIn, nameless, NamelessTy.rename, NamelessTy.abstract_rename_lift,
        ih (h.push a b)]
    | _ => simp [alphaEqIn, nameless, NamelessTy.rename]

/-- Equality up to bound names is equality of nameless forms. -/
theorem Ty.alphaEq_iff {s t : Ty} : s.alphaEq t = true ↔ s.nameless = t.nameless := by
  have h := alphaEqIn_iff (.nil 0) s t
  rw [List.map_nil, Ref.bindAll, NamelessTy.rename_id, NamelessTy.rename_id] at h
  exact h

/-! ## Terms -/

def Term.nameless : Term → NamelessTerm
  | .var x => .var (.free x)
  | .lam x type body => .lam type.nameless (body.nameless.abstract x)
  | .app function argument => .app function.nameless argument.nameless
  | .tyLam a k body => .tyLam k (body.nameless.abstractTy a)
  | .inst term type => .inst term.nameless type.nameless
  | .const l => .const l
  | .error type => .error type.nameless

/-- Binders of both sorts take their levels from one count, so the levels of one sort
have gaps. -/
theorem Term.alphaEqIn_iff {lefts rights : TermLevels} {level : Nat}
    (htypes : Levels.Paired lefts.types rights.types level)
    (hterms : Levels.Paired lefts.terms rights.terms level) (s t : Term) :
    s.alphaEqIn lefts rights level t = true ↔
      s.nameless.rename (Ref.bindAll (lefts.types.map Prod.fst))
          (Ref.bindAll (lefts.terms.map Prod.fst)) =
        t.nameless.rename (Ref.bindAll (rights.types.map Prod.fst))
          (Ref.bindAll (rights.terms.map Prod.fst)) := by
  induction s generalizing t lefts rights level with
  | var x =>
    cases t with
    | var y =>
      simp only [alphaEqIn, nameless, NamelessTerm.rename, NamelessTerm.var.injEq,
        hterms.agree_iff]
    | _ => simp [alphaEqIn, nameless, NamelessTerm.rename]
  | const l => cases t <;> simp [alphaEqIn, nameless, NamelessTerm.rename]
  | error type =>
    cases t with
    | error type' => simp [alphaEqIn, nameless, NamelessTerm.rename, Ty.alphaEqIn_iff htypes]
    | _ => simp [alphaEqIn, nameless, NamelessTerm.rename]
  | app f a ihf iha =>
    cases t with
    | app f' a' =>
      simp [alphaEqIn, nameless, NamelessTerm.rename, ihf htypes hterms, iha htypes hterms]
    | _ => simp [alphaEqIn, nameless, NamelessTerm.rename]
  | inst s type ih =>
    cases t with
    | inst t type' =>
      simp [alphaEqIn, nameless, NamelessTerm.rename, Ty.alphaEqIn_iff htypes,
        ih htypes hterms, and_comm]
    | _ => simp [alphaEqIn, nameless, NamelessTerm.rename]
  | lam x type body ih =>
    cases t with
    | lam y type' body' =>
      have hbody := @ih ⟨lefts.types, (x, level) :: lefts.terms⟩
        ⟨rights.types, (y, level) :: rights.terms⟩ (level + 1)
        (htypes.mono (Nat.le_succ level)) (hterms.push x y) body'
      simp only [alphaEqIn, Bool.and_eq_true, Ty.alphaEqIn_iff htypes, hbody, nameless,
        NamelessTerm.rename, NamelessTerm.lam.injEq, NamelessTerm.abstract_rename, List.map_cons,
        Ref.bindAll]
    | _ => simp [alphaEqIn, nameless, NamelessTerm.rename]
  | tyLam a k body ih =>
    cases t with
    | tyLam b j body' =>
      have hbody := @ih ⟨(a, level) :: lefts.types, lefts.terms⟩
        ⟨(b, level) :: rights.types, rights.terms⟩ (level + 1)
        (htypes.push a b) (hterms.mono (Nat.le_succ level)) body'
      simp only [alphaEqIn, Bool.and_eq_true, beq_iff_eq, hbody, nameless, NamelessTerm.rename,
        NamelessTerm.tyLam.injEq, NamelessTerm.abstractTy_rename, List.map_cons, Ref.bindAll]
    | _ => simp [alphaEqIn, nameless, NamelessTerm.rename]

/-- Equality of terms up to bound names is equality of nameless forms. -/
theorem Term.alphaEq_iff {s t : Term} : s.alphaEq t = true ↔ s.nameless = t.nameless := by
  have h := @alphaEqIn_iff .none .none 0 (.nil 0) (.nil 0) s t
  simp only [TermLevels.none, List.map_nil, Ref.bindAll, NamelessTerm.rename_id] at h
  exact h

/-! ## Untyped terms -/

def UTerm.nameless : UTerm → NamelessUTerm
  | .var x => .var (.free x)
  | .lam x body => .lam (body.nameless.abstract x)
  | .app function argument => .app function.nameless argument.nameless
  | .delay body => .delay body.nameless
  | .force term => .force term.nameless
  | .const l => .const l
  | .error => .error

theorem UTerm.alphaEqIn_iff {lefts rights : Levels Name} {level : Nat}
    (h : Levels.Paired lefts rights level) (s t : UTerm) :
    s.alphaEqIn lefts rights level t = true ↔
      s.nameless.rename (Ref.bindAll (lefts.map Prod.fst)) =
        t.nameless.rename (Ref.bindAll (rights.map Prod.fst)) := by
  induction s generalizing t lefts rights level with
  | var x =>
    cases t with
    | var y =>
      simp only [alphaEqIn, nameless, NamelessUTerm.rename, NamelessUTerm.var.injEq, h.agree_iff]
    | _ => simp [alphaEqIn, nameless, NamelessUTerm.rename]
  | const | error => cases t <;> simp [alphaEqIn, nameless, NamelessUTerm.rename]
  | app f a ihf iha =>
    cases t with
    | app f' a' => simp [alphaEqIn, nameless, NamelessUTerm.rename, ihf h, iha h]
    | _ => simp [alphaEqIn, nameless, NamelessUTerm.rename]
  | delay s ih =>
    cases t with
    | delay t => simp [alphaEqIn, nameless, NamelessUTerm.rename, ih h]
    | _ => simp [alphaEqIn, nameless, NamelessUTerm.rename]
  | force s ih =>
    cases t with
    | force t => simp [alphaEqIn, nameless, NamelessUTerm.rename, ih h]
    | _ => simp [alphaEqIn, nameless, NamelessUTerm.rename]
  | lam x body ih =>
    cases t with
    | lam y body' =>
      simp only [alphaEqIn, ih (h.push x y), nameless, NamelessUTerm.rename,
        NamelessUTerm.lam.injEq, NamelessUTerm.abstract_rename, List.map_cons, Ref.bindAll]
    | _ => simp [alphaEqIn, nameless, NamelessUTerm.rename]

/-- Equality of untyped terms up to bound names is equality of nameless forms. -/
theorem UTerm.alphaEq_iff {s t : UTerm} : s.alphaEq t = true ↔ s.nameless = t.nameless := by
  have h := alphaEqIn_iff (.nil 0) s t
  rw [List.map_nil, Ref.bindAll, NamelessUTerm.rename_id, NamelessUTerm.rename_id] at h
  exact h

end FomegaLab
