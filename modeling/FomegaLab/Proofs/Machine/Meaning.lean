-- What types mean on the machine with environments. A type of kind `*` means a set of
-- machine values and a type function a function on meanings, so that types which
-- reduce to each other mean the same. A term computes a set if the machine ends
-- whenever it would end on every value of the set.
import FomegaLab.Machine.CEK
import FomegaLab.Proofs.Nameless.Kinding

namespace FomegaLab

namespace CEK

/-! ## Ending -/

/-- The machine ends from here, with a value or because the program evaluated an error. -/
inductive Ends : Outcome → Prop
  | value (v : Value) : Ends (.value v)
  | error : Ends (.fault ⟨.evaluatedError, some .error⟩)
  | next {s : State} (h : Ends (step s)) : Ends (.next s)

/-- The machine ends on every value in `P` that is given to the stack. -/
def Accepts (P : Value → Prop) (stack : List Frame) : Prop :=
  ∀ v, P v → Ends (giveBack v stack)

/-- The machine ends with `t` in focus on every stack that accepts `P`. -/
def Computes (P : Value → Prop) (t : UTerm) (env : Env) : Prop :=
  ∀ stack, Accepts P stack → Ends (step ⟨t, env, stack⟩)

/-- The closures that compute `Q` when they are called with a value in `P`. -/
def Calls (P Q : Value → Prop) (v : Value) : Prop :=
  ∃ x body env, v = .closure x body env ∧ ∀ w, P w → Computes Q body (.bind x w env)

/-- The suspensions that compute each of the sets `Q i` when they are forced. -/
def Forces {ι : Type} (Q : ι → Value → Prop) (v : Value) : Prop :=
  ∃ body env, v = .suspension body env ∧ ∀ i, Computes (Q i) body env

/-- The constants of a builtin type. -/
def Constants (b : Builtin) (v : Value) : Prop := ∃ l : Literal, v = .const l ∧ l.builtin = b

variable {ι : Type} {P Q : Value → Prop} {env : Env}

theorem computes_var {x : Name} {v : Value} (hx : env.find? x = some v) (hv : P v) :
    Computes P (.var x) env := by
  intro stack hstack
  simp only [step, hx]
  exact hstack v hv

theorem computes_const {l : Literal} (h : P (.const l)) : Computes P (.const l) env :=
  fun _ hstack => hstack _ h

theorem computes_error : Computes P .error env := fun _ _ => .error

theorem computes_lam {x : Name} {body : UTerm}
    (h : ∀ w, P w → Computes Q body (.bind x w env)) : Computes (Calls P Q) (.lam x body) env :=
  fun _ hstack => hstack _ ⟨x, body, env, rfl, h⟩

theorem computes_app {f t : UTerm} (hf : Computes (Calls P Q) f env) (ht : Computes P t env) :
    Computes Q (.app f t) env := by
  intro stack hstack
  refine .next (hf _ ?_)
  rintro _ ⟨x, body, env', rfl, hbody⟩
  refine .next (ht _ fun w hw => ?_)
  exact .next (hbody w hw stack hstack)

theorem computes_delay {Q : ι → Value → Prop} {body : UTerm}
    (h : ∀ i, Computes (Q i) body env) : Computes (Forces Q) (.delay body) env :=
  fun _ hstack => hstack _ ⟨body, env, rfl, h⟩

theorem computes_force {Q : ι → Value → Prop} {t : UTerm} (h : Computes (Forces Q) t env) (i : ι) :
    Computes (Q i) (.force t) env := by
  intro stack hstack
  refine .next (h _ ?_)
  rintro _ ⟨body, env', rfl, hbody⟩
  exact .next (hbody i stack hstack)

end CEK

/-! ## Meanings -/

/-- What the types of a kind mean. -/
def Kind.Meaning : Kind → Type
  | star => CEK.Value → Prop
  | arrow j k => j.Meaning → k.Meaning

namespace Kind.Meaning

/-- The meaning of what has no meaning at a kind. -/
def none : (k : Kind) → k.Meaning
  | .star => fun _ => False
  | .arrow _ k => fun _ => none k

/-- A set of values, which is a meaning at `*` only. -/
def ofSet (P : CEK.Value → Prop) : (k : Kind) → k.Meaning
  | .star => P
  | .arrow j k => none (.arrow j k)

/-- A meaning together with its kind. -/
abbrev Kinded := Σ k : Kind, k.Meaning

/-- The meaning of a reference at a kind, if it has this kind. -/
def get (k : Kind) : Option Kinded → k.Meaning
  | some ⟨j, X⟩ => if h : j = k then h ▸ X else none k
  | Option.none => none k

@[simp] theorem get_some {k : Kind} (X : k.Meaning) : Meaning.get k (some ⟨k, X⟩) = X := by
  simp [Meaning.get]

end Kind.Meaning

/-- The meanings of the references in scope. -/
abbrev Meanings := Ref TyName → Option Kind.Meaning.Kinded

namespace Meanings

/-- The scope of kinds of the references with a meaning. -/
def kinds (ρ : Meanings) : KindScope := fun r => (ρ r).map Sigma.fst

/-- One more binder, with a meaning for it. -/
def push {k : Kind} (X : k.Meaning) (ρ : Meanings) : Meanings := Ref.cons (some ⟨k, X⟩) ρ

@[simp] theorem push_zero {k : Kind} (X : k.Meaning) (ρ : Meanings) :
    push X ρ (.bound 0) = some ⟨k, X⟩ := rfl

@[simp] theorem push_succ {k : Kind} (X : k.Meaning) (ρ : Meanings) (r : Ref TyName) :
    push X ρ r.succ = ρ r := Ref.cons_succ _ _ _

theorem kinds_push {k : Kind} (X : k.Meaning) (ρ : Meanings) :
    (push X ρ).kinds = ρ.kinds.push k := by
  funext r
  cases r using Ref.succCases with
  | zero => rfl
  | succ r => rw [kinds, push_succ, KindScope.push_succ, kinds]

theorem push_comp_lift {k : Kind} (X : k.Meaning) (ρ : Meanings) (f : Ref TyName → Ref TyName) :
    push X ρ ∘ Ref.lift f = push X (ρ ∘ f) := by
  funext r
  cases r using Ref.succCases <;> simp

theorem push_comp_succ {k : Kind} (X : k.Meaning) (ρ : Meanings) :
    push X ρ ∘ Ref.succ = ρ := by
  funext r
  simp

end Meanings

namespace NamelessTy

open Kind (Meaning)

/-- The meaning of a type at a kind. It says something about the type only at the kind
that the type has. -/
def meaning (ρ : Meanings) : NamelessTy → (k : Kind) → k.Meaning
  | var r, k => Meaning.get k (ρ r)
  | arrow argument result, k =>
    .ofSet (CEK.Calls (argument.meaning ρ .star) (result.meaning ρ .star)) k
  | all j body, k => .ofSet (CEK.Forces fun X : j.Meaning => body.meaning (ρ.push X) .star) k
  | lam _ _, .star => .none .star
  | lam _ body, .arrow _ k => fun X => body.meaning (ρ.push X) k
  | app function argument, k =>
    match argument.kind? ρ.kinds with
    | some j => function.meaning ρ (.arrow j k) (argument.meaning ρ j)
    | none => .none k
  | builtin b, k => .ofSet (CEK.Constants b) k

theorem meaning_app {ρ : Meanings} {f t : NamelessTy} {j : Kind} (ht : t.kind? ρ.kinds = some j)
    (k : Kind) : (app f t).meaning ρ k = f.meaning ρ (.arrow j k) (t.meaning ρ j) := by
  rw [meaning, ht]

/-! ## Renaming and substitution -/

theorem meaning_rename (f : Ref TyName → Ref TyName) (ρ : Meanings) (t : NamelessTy) (k : Kind) :
    (t.rename f).meaning ρ k = t.meaning (ρ ∘ f) k := by
  induction t generalizing f ρ k with
  | var | builtin => rfl
  | arrow s t ihs iht => simp only [rename, meaning, ihs, iht]
  | all j t ih => simp only [rename, meaning, ih, Meanings.push_comp_lift]
  | lam j t ih =>
    cases k with
    | star => rfl
    | arrow i k =>
      funext X
      have hbody := ih (Ref.lift f) (ρ.push X) k
      rw [Meanings.push_comp_lift] at hbody
      exact hbody
  | app s t ihs iht =>
    simp only [rename, meaning, kind?_rename, ihs, iht]
    rfl

/-- Only the references that occur in a type matter to its meaning. -/
theorem meaning_congr {ρ ρ' : Meanings} {t : NamelessTy} (h : ∀ r, t.Occurs r → ρ r = ρ' r)
    (k : Kind) : t.meaning ρ k = t.meaning ρ' k := by
  have hpush : ∀ {ρ ρ' : Meanings} {t : NamelessTy} {k : Kind} (X : k.Meaning),
      (∀ r, t.Occurs r.succ → ρ r = ρ' r) → ∀ r, t.Occurs r → ρ.push X r = ρ'.push X r := by
    intro ρ ρ' t k X h r hr
    cases r using Ref.succCases with
    | zero => rfl
    | succ r => simpa using h r hr
  induction t generalizing ρ ρ' k with
  | var r => rw [meaning, meaning, h r rfl]
  | builtin => rfl
  | arrow s t ihs iht =>
    simp only [meaning, ihs fun r hr => h r (Or.inl hr), iht fun r hr => h r (Or.inr hr)]
  | all j t ih => simp only [meaning, fun X : j.Meaning => ih (hpush X h) .star]
  | lam j t ih =>
    cases k with
    | star => rfl
    | arrow i k =>
      funext X
      exact ih (hpush X h) k
  | app s t ihs iht =>
    have hkinds : t.kind? ρ.kinds = t.kind? ρ'.kinds :=
      kind?_congr fun r hr => by rw [Meanings.kinds, h r (Or.inr hr), Meanings.kinds]
    simp only [meaning, hkinds, ihs fun r hr => h r (Or.inl hr), iht fun r hr => h r (Or.inr hr)]

/-- In the scope `ρ`, the substitution gives each reference a type that means what `ρ'`
says of the reference. -/
def Subst.Means (σ : Subst) (ρ' ρ : Meanings) : Prop :=
  ∀ r j X, ρ' r = some ⟨j, X⟩ → (σ r).kind? ρ.kinds = some j ∧ (σ r).meaning ρ j = X

namespace Subst.Means

variable {σ : Subst} {ρ ρ' : Meanings}

theorem fits (h : σ.Means ρ' ρ) : σ.Fits ρ'.kinds ρ.kinds := by
  intro r j hr
  obtain ⟨⟨i, X⟩, hX, rfl⟩ := Option.map_eq_some_iff.mp hr
  exact (h r i X hX).1

theorem lift (h : σ.Means ρ' ρ) {k : Kind} (X : k.Meaning) :
    σ.lift.Means (ρ'.push X) (ρ.push X) := by
  intro r j Y hr
  cases r using Ref.succCases with
  | zero =>
    cases hr
    exact ⟨rfl, Meaning.get_some X⟩
  | succ r =>
    rw [Subst.lift_succ, kind?_rename, Meanings.kinds_push, KindScope.push_comp_succ,
      meaning_rename, Meanings.push_comp_succ]
    exact h r j Y (by simpa using hr)

theorem cons_var {t : NamelessTy} {j : Kind} (ht : t.kind? ρ.kinds = some j) :
    Subst.Means (Ref.cons t var) (ρ.push (t.meaning ρ j)) ρ := by
  intro r i X hr
  cases r using Ref.succCases with
  | zero =>
    cases hr
    exact ⟨ht, rfl⟩
  | succ r =>
    rw [Meanings.push_succ] at hr
    rw [Ref.cons_succ, kind?, meaning, Meanings.kinds, hr]
    exact ⟨rfl, Meaning.get_some X⟩

end Subst.Means

theorem meaning_subst {σ : Subst} {ρ ρ' : Meanings} (hσ : σ.Means ρ' ρ) {t : NamelessTy} {k : Kind}
    (h : t.kind? ρ'.kinds = some k) : (t.subst σ).meaning ρ k = t.meaning ρ' k := by
  induction t generalizing σ ρ ρ' k with
  | var r =>
    obtain ⟨⟨j, X⟩, hX, rfl⟩ := Option.map_eq_some_iff.mp h
    rw [meaning, hX, Meaning.get_some]
    exact (hσ r j X hX).2
  | builtin => rfl
  | arrow s t ihs iht =>
    obtain ⟨hs, ht, rfl⟩ := kind?_arrow.mp h
    rw [subst, meaning, meaning, ihs hσ hs, iht hσ ht]
  | all j t ih =>
    obtain ⟨ht, rfl⟩ := kind?_all.mp h
    have hbody : ∀ X : j.Meaning,
        (t.subst σ.lift).meaning (ρ.push X) .star = t.meaning (ρ'.push X) .star :=
      fun X => ih (hσ.lift X) (by rw [Meanings.kinds_push, ht])
    simp only [subst, meaning, hbody]
  | lam j t ih =>
    obtain ⟨result, ht, rfl⟩ := kind?_lam.mp h
    funext X
    exact ih (hσ.lift X) (by rw [Meanings.kinds_push, ht])
  | app f t ihf iht =>
    obtain ⟨j, hf, ht⟩ := kind?_app.mp h
    rw [subst, meaning_app (kind?_subst hσ.fits ht), meaning_app ht, ihf hσ hf, iht hσ ht]

/-- Instantiating a binder gives it the meaning of the argument. -/
theorem meaning_inst {ρ : Meanings} {body argument : NamelessTy} {j k : Kind}
    (hb : body.kind? (ρ.kinds.push j) = some k) (ha : argument.kind? ρ.kinds = some j) :
    (body.inst argument).meaning ρ k = body.meaning (ρ.push (argument.meaning ρ j)) k :=
  meaning_subst (.cons_var ha) (by rw [Meanings.kinds_push, hb])

/-! ## Reduction -/

theorem Step.meaning {t t' : NamelessTy} (hs : Step t t') {ρ : Meanings} {k : Kind}
    (h : t.kind? ρ.kinds = some k) : t.meaning ρ k = t'.meaning ρ k := by
  induction hs generalizing ρ k with
  | beta j body argument =>
    obtain ⟨i, hf, ha⟩ := kind?_app.mp h
    obtain ⟨result, hb, hk⟩ := kind?_lam.mp hf
    simp only [Kind.arrow.injEq] at hk
    obtain ⟨rfl, rfl⟩ := hk
    rw [meaning_app ha, meaning_inst hb ha]
    rfl
  | arrowArgument t _ ih =>
    obtain ⟨hs, ht, rfl⟩ := kind?_arrow.mp h
    rw [NamelessTy.meaning, NamelessTy.meaning, ih hs]
  | arrowResult s _ ih =>
    obtain ⟨hs, ht, rfl⟩ := kind?_arrow.mp h
    rw [NamelessTy.meaning, NamelessTy.meaning, ih ht]
  | @all j t t' _ ih =>
    obtain ⟨ht, rfl⟩ := kind?_all.mp h
    have hbody : ∀ X : j.Meaning, t.meaning (ρ.push X) .star = t'.meaning (ρ.push X) .star :=
      fun X => ih (by rw [Meanings.kinds_push, ht])
    simp only [NamelessTy.meaning, hbody]
  | lam j _ ih =>
    obtain ⟨result, ht, rfl⟩ := kind?_lam.mp h
    funext X
    exact ih (by rw [Meanings.kinds_push, ht])
  | appFunction t _ ih =>
    obtain ⟨j, hf, ht⟩ := kind?_app.mp h
    rw [meaning_app ht, meaning_app ht, ih hf]
  | appArgument f hs ih =>
    obtain ⟨j, hf, ht⟩ := kind?_app.mp h
    rw [meaning_app ht, meaning_app (hs.kind? ht), ih ht]

/-- Types that reduce to each other mean the same. -/
theorem Steps.meaning {t t' : NamelessTy} (hs : Steps t t') {ρ : Meanings} {k : Kind}
    (h : t.kind? ρ.kinds = some k) : t.meaning ρ k = t'.meaning ρ k := by
  induction hs with
  | refl => rfl
  | tail hs hstep ih => rw [ih, hstep.meaning (Steps.kind? hs h)]

end NamelessTy

end FomegaLab
