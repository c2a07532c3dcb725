-- The machines do not see bound names. Two runs of the machine that substitutes, from
-- terms that are equal up to bound names, stay equal up to bound names, though each run
-- gives its own new names to the binders that it passes. The machine with environments
-- ends as that machine does, so it cannot tell such terms apart either.
import FomegaLab.Proofs.Machine.LockStep
import FomegaLab.Proofs.Named.TermSubst

namespace FomegaLab

/-- Both evaluations return and the results are the same, or both end for one reason, which
blames the program or the machine, and the causes are the same. -/
def EndAlike {τ : Type} (same : τ → τ → Bool) :
    Except (Fault τ) τ → Except (Fault τ) τ → Prop
  | .ok t, .ok u => same t u = true
  | .error f, .error g =>
    f.reason = g.reason ∧ (f.reason.blame = .user ∨ f.reason.blame = .internal) ∧
      ∃ t u, f.cause = some t ∧ g.cause = some u ∧ same t u = true
  | _, _ => False

namespace BoundNames

/-! ## Related terms and states -/

/-- Two terms are equal up to bound names, and each is below the supply of its run. -/
structure SameTerm (n m : Int) (t u : Term) : Prop where
  nameless_eq : t.nameless = u.nameless
  left : t.Below n
  right : u.Below m

inductive SameFrame (n m : Int) : CK.Frame → CK.Frame → Prop
  | awaitArgument {t u : Term} (h : SameTerm n m t u) :
      SameFrame n m (.awaitArgument t) (.awaitArgument u)
  | awaitFunction {t u : Term} (h : SameTerm n m t u) :
      SameFrame n m (.awaitFunction t) (.awaitFunction u)
  | instantiate {s t : Ty} (h : s.nameless = t.nameless) (hs : s.Below n) (ht : t.Below m) :
      SameFrame n m (.instantiate s) (.instantiate t)

structure SameState (n m : Int) (s s' : CK.State) : Prop where
  focus : SameTerm n m s.focus s'.focus
  stack : List.Forall₂ (SameFrame n m) s.stack s'.stack

/-- Where one step of each run leads, with the supplies that the steps leave. -/
inductive SameOutcome : CK.Outcome × Int → CK.Outcome × Int → Prop
  | next {s s' : CK.State} {n m : Int} (h : SameState n m s s') :
      SameOutcome (.next s, n) (.next s', m)
  | value {t u : Term} {n m : Int} (h : t.nameless = u.nameless) :
      SameOutcome (.value t, n) (.value u, m)
  | fault {f g : Fault Term} {n m : Int} (h : EndAlike Term.alphaEq (.error f) (.error g)) :
      SameOutcome (.fault f, n) (.fault g, m)

variable {n m n' m' : Int}

theorem SameTerm.mono {t u : Term} (h : SameTerm n m t u) (hn : n ≤ n') (hm : m ≤ m') :
    SameTerm n' m' t u :=
  ⟨h.nameless_eq, h.left.mono hn, h.right.mono hm⟩

theorem SameFrame.mono {k k' : CK.Frame} (h : SameFrame n m k k') (hn : n ≤ n') (hm : m ≤ m') :
    SameFrame n' m' k k' := by
  cases h with
  | awaitArgument h => exact .awaitArgument (h.mono hn hm)
  | awaitFunction h => exact .awaitFunction (h.mono hn hm)
  | instantiate h hs ht => exact .instantiate h (hs.mono hn) (ht.mono hm)

theorem endAlike_fault {r : FaultReason} (hr : r.blame = .user ∨ r.blame = .internal)
    {t u : Term} (h : t.nameless = u.nameless) :
    EndAlike Term.alphaEq (.error ⟨r, some t⟩) (.error ⟨r, some u⟩) :=
  ⟨rfl, hr, t, u, rfl, rfl, Term.alphaEq_iff.mpr h⟩

/-! ## One step -/

variable {ks ks' : List CK.Frame}

/-- The next state of two runs that go on with what a substitution returns. -/
theorem next_of_standsFor {v w : NamelessTerm} {out out' : Term × Int}
    (h : Term.StandsFor n v out) (h' : Term.StandsFor m w out') (hvw : v = w)
    (hs : List.Forall₂ (SameFrame n m) ks ks') :
    SameOutcome (.next ⟨out.1, ks⟩, out.2) (.next ⟨out'.1, ks'⟩, out'.2) := by
  refine .next ⟨⟨?_, h.below, h'.below⟩, hs.imp fun _ _ hk => hk.mono h.le h'.le⟩
  rw [h.nameless_eq, h'.nameless_eq, hvw]

theorem giveBack_alike {t u : Term} (h : SameTerm n m t u)
    (hs : List.Forall₂ (SameFrame n m) ks ks') :
    SameOutcome (CK.giveBack t ks n) (CK.giveBack u ks' m) := by
  cases hs with
  | nil => exact .value h.nameless_eq
  | cons hk hs =>
    cases hk with
    | awaitArgument ha => exact .next ⟨ha, .cons (.awaitFunction h) hs⟩
    | @awaitFunction f g hf =>
      have heq := hf.nameless_eq
      have hcause : (Term.app f t).nameless = (Term.app g u).nameless := by
        rw [Term.nameless, Term.nameless, heq, h.nameless_eq]
      cases f <;> cases g <;> simp only [Term.nameless, reduceCtorEq, NamelessTerm.lam.injEq] at heq
      case lam.lam x type body y type' body' =>
        -- the bodies differ in the names `x` and `y`, and only as abstractions they are equal
        exact next_of_standsFor (Term.subst_spec hf.left.2.2 hf.left.1 h.left)
          (Term.subst_spec hf.right.2.2 hf.right.1 h.right)
          (NamelessTerm.subst_single_of_abstract_eq heq.2 h.nameless_eq) hs
      all_goals exact .fault (endAlike_fault (.inr rfl) hcause)
    | @instantiate type type' htype hb hb' =>
      have heq := h.nameless_eq
      have hcause : (Term.inst t type).nameless = (Term.inst u type').nameless := by
        rw [Term.nameless, Term.nameless, heq, htype]
      have hl := h.left
      have hr := h.right
      cases t <;> cases u <;>
        simp only [Term.nameless, reduceCtorEq, NamelessTerm.tyLam.injEq] at heq
      case tyLam.tyLam a kind body b kind' body' =>
        exact next_of_standsFor (Term.substType_spec hl.2 hl.1 hb)
          (Term.substType_spec hr.2 hr.1 hb')
          (NamelessTerm.substTy_single_of_abstractTy_eq heq.2 htype) hs
      all_goals exact .fault (endAlike_fault (.inr rfl) hcause)

theorem step_alike {s s' : CK.State} (h : SameState n m s s') :
    SameOutcome (CK.step s n) (CK.step s' m) := by
  obtain ⟨t, ks⟩ := s
  obtain ⟨u, ks'⟩ := s'
  obtain ⟨hfocus, hstack⟩ := h
  simp only at hfocus hstack
  have heq := hfocus.nameless_eq
  have hl := hfocus.left
  have hr := hfocus.right
  -- terms that are equal up to bound names are built in the same way
  cases t <;> cases u <;> simp only [Term.nameless, reduceCtorEq, NamelessTerm.app.injEq,
    NamelessTerm.inst.injEq, NamelessTerm.var.injEq, Ref.free.injEq] at heq
  case var.var x y =>
    subst heq
    exact .fault (endAlike_fault (.inr rfl) rfl)
  case app.app f t g u =>
    exact .next ⟨⟨heq.1, hl.1, hr.1⟩, .cons (.awaitArgument ⟨heq.2, hl.2, hr.2⟩) hstack⟩
  case inst.inst t type u type' =>
    exact .next ⟨⟨heq.1, hl.1, hr.1⟩, .cons (.instantiate heq.2 hl.2 hr.2) hstack⟩
  case error.error => exact .fault (endAlike_fault (.inl rfl) hfocus.nameless_eq)
  all_goals exact giveBack_alike hfocus hstack

/-! ## Whole runs -/

/-- Runs from states that are equal up to bound names end alike. Their supplies may move
apart on the way, if a binder is renamed in one run only. -/
theorem run_alike {exhausted exhausted' : Fault Term}
    (hex : EndAlike Term.alphaEq (.error exhausted) (.error exhausted')) (steps : Nat)
    {s s' : CK.State} (h : SameState n m s s') :
    EndAlike Term.alphaEq (CK.run exhausted steps s n).1 (CK.run exhausted' steps s' m).1 := by
  induction steps generalizing s s' n m with
  | zero => exact hex
  | succ steps ih =>
    have hstep := step_alike h
    rw [CK.run, CK.run, Fresh.bind_apply, Fresh.bind_apply]
    generalize CK.step s n = o at hstep ⊢
    generalize CK.step s' m = o' at hstep ⊢
    cases hstep with
    | next hnext => exact ih hnext
    | value hv => exact Term.alphaEq_iff.mpr hv
    | fault hf => exact hf

theorem evaluate_alike {t u : Term} (h : SameTerm n m t u) (budget : Int) :
    EndAlike Term.alphaEq (CK.evaluate budget t n).1 (CK.evaluate budget u m).1 :=
  run_alike (endAlike_fault (.inl rfl) h.nameless_eq) _ ⟨h, .nil⟩

/-! ## The machine with environments -/

/-- What two terms erase to is equal up to bound names if the terms are. -/
theorem alphaEq_of_erase {t t' : Term} {u u' : UTerm} (hu : t.erase.alphaEq u = true)
    (hu' : t'.erase.alphaEq u' = true) (h : t.alphaEq t' = true) : u.alphaEq u' = true := by
  rw [UTerm.alphaEq_iff, Term.nameless_erase] at hu hu'
  rw [UTerm.alphaEq_iff, ← hu, ← hu', Term.alphaEq_iff.mp h]

/-- Runs that end as two runs do that end alike, end alike. -/
theorem endAlike_of_sameEnd {e e' : Except (Fault Term) Term} {c c' : Except (Fault UTerm) UTerm}
    (h : LockStep.SameEnd e c) (h' : LockStep.SameEnd e' c') (he : EndAlike Term.alphaEq e e') :
    EndAlike UTerm.alphaEq c c' := by
  cases e <;> cases e' <;> cases c <;> cases c' <;>
    simp only [LockStep.SameEnd, EndAlike] at h h' he
  case ok.ok.ok.ok => exact alphaEq_of_erase h h' he
  case error.error.error.error f f' g g' =>
    obtain ⟨hreason, hblame, t, u, ht, hu, htu⟩ := h
    obtain ⟨hreason', _, t', u', ht', hu', htu'⟩ := h'
    obtain ⟨heq, hside, s, s', hs, hs', hss⟩ := he
    cases ht.symm.trans hs
    cases ht'.symm.trans hs'
    refine ⟨?_, hblame ▸ hside, u, u', hu, hu', alphaEq_of_erase htu htu' hss⟩
    rw [← heq] at hreason'
    exact hreason.unique hreason'

/-- An untyped term is evaluated without a supply, so some supply is above its uniques. -/
theorem exists_annotate_below (u : UTerm) : ∃ n, u.annotate.Below n := by
  induction u with
  | var x => exact ⟨x.unique + 1, Int.lt_succ x.unique⟩
  | const | error => exact ⟨0, trivial⟩
  | lam x body ih =>
    obtain ⟨n, hn⟩ := ih
    exact ⟨max (x.unique + 1) n, by omega, trivial, hn.mono (by omega)⟩
  | app f t ihf iht =>
    obtain ⟨n, hf⟩ := ihf
    obtain ⟨m, ht⟩ := iht
    exact ⟨max n m, hf.mono (by omega), ht.mono (by omega)⟩
  | delay body ih =>
    obtain ⟨n, hn⟩ := ih
    exact ⟨max 1 n, show (0 : Int) < max 1 n by omega, hn.mono (by omega)⟩
  | force t ih =>
    obtain ⟨n, hn⟩ := ih
    exact ⟨n, hn, trivial⟩

/-- A closed untyped term ends as the machine that substitutes ends for a term that erases
to it. -/
theorem sameEnd_annotate {u : UTerm} (h : u.free = []) (budget n : Int) :
    LockStep.SameEnd (CK.evaluate budget u.annotate n).1 (CEK.evaluate budget u) := by
  have hfree : u.annotate.free = [] := by rw [← Term.free_erase, UTerm.erase_annotate, h]
  have hstart := LockStep.start_related hfree
  rw [UTerm.erase_annotate] at hstart
  exact LockStep.run_related ⟨.outOfBudget budget, _, u, rfl, rfl, u.erase_annotate⟩ _ hstart n

/-- Neither machine sees bound names. Evaluating two terms that are equal up to bound names,
each with new names of its own, ends alike at every budget, and so does evaluating two
closed untyped terms that are equal up to bound names. -/
theorem the_machines_do_not_see_bound_names :
    (∀ (t u : Term) (budget n m : Int), t.alphaEq u = true → t.Below n → u.Below m →
      EndAlike Term.alphaEq (CK.evaluate budget t n).1 (CK.evaluate budget u m).1) ∧
    ∀ (u v : UTerm) (budget : Int), u.alphaEq v = true → u.free = [] → v.free = [] →
      EndAlike UTerm.alphaEq (CEK.evaluate budget u) (CEK.evaluate budget v) := by
  refine ⟨fun t u budget n m h ht hu => evaluate_alike ⟨Term.alphaEq_iff.mp h, ht, hu⟩ budget, ?_⟩
  intro u v budget h hu hv
  obtain ⟨n, hn⟩ := exists_annotate_below u
  obtain ⟨m, hm⟩ := exists_annotate_below v
  have hsame : SameTerm n m u.annotate v.annotate := by
    refine ⟨?_, hn, hm⟩
    rw [UTerm.nameless_annotate, UTerm.nameless_annotate, UTerm.alphaEq_iff.mp h]
  exact endAlike_of_sameEnd (sameEnd_annotate hu budget n) (sameEnd_annotate hv budget m)
    (evaluate_alike hsame budget)

/-- Two ways to name one program. Its value is a closure with a binder inside that hides
the name closed over, and each name is at another binder in the other program. -/
theorem the_machines_do_not_see_bound_names_around_a_closure :
    let x : Name := ⟨"x", 0⟩
    let y : Name := ⟨"y", 1⟩
    let unit : Ty := .builtin .unit
    let c : Term := .const ⟨.unit, none⟩
    let program (x y : Name) (a : TyName) : Term :=
      .app (.inst (.tyLam a .star (.lam x (.var a) (.lam y (.var a)
        (.app (.lam x (.var a) (.var x)) (.var x))))) unit) c
    let result (x y : Name) : Term := .lam y unit (.app (.lam x unit (.var x)) c)
    let t := program x y ⟨"a", 2⟩
    let u := program y x ⟨"b", 3⟩
    t.alphaEq u = true ∧ t.Below 4 ∧ u.Below 4 ∧
      (CK.evaluate 6 t 4).1 = .ok (result x y) ∧ (CK.evaluate 6 u 4).1 = .ok (result y x) ∧
      EndAlike Term.alphaEq (CK.evaluate 6 t 4).1 (CK.evaluate 6 u 4).1 ∧
      t.erase.alphaEq u.erase = true ∧ t.erase.free = [] ∧ u.erase.free = [] ∧
      CEK.evaluate 6 t.erase = .ok (result x y).erase ∧
      CEK.evaluate 6 u.erase = .ok (result y x).erase ∧
      EndAlike UTerm.alphaEq (CEK.evaluate 6 t.erase) (CEK.evaluate 6 u.erase) := by
  intro x y unit c program result t u
  have ht : t.Below 4 := by simp [t, program, x, y, unit, c, Term.Below, Ty.Below]
  have hu : u.Below 4 := by simp [u, program, x, y, unit, c, Term.Below, Ty.Below]
  have htu : t.alphaEq u = true := by rfl
  have herased : t.erase.alphaEq u.erase = true := by rfl
  obtain ⟨hck, hcek⟩ := the_machines_do_not_see_bound_names
  exact ⟨htu, ht, hu, rfl, rfl, hck t u 6 4 4 htu ht hu, herased, rfl, rfl, rfl, rfl,
    hcek t.erase u.erase 6 herased rfl rfl⟩

end BoundNames

end FomegaLab
