-- The two ways to run a property. A fail-fast run ends at the first member on which the
-- property does not hold; an exhaustive run ends at the first member with a fault, and
-- otherwise collects the counterexamples of all members. Both are determined by the verdicts
-- on the members, so one run can be told from the other.
import FomegaLab.Proofs.Harness.Endings

namespace FomegaLab

/-! ## The first value that fails a test -/

/-- Either a test holds of all values, or there is a first one for which it does not. -/
theorem exists_first {V : Type} (p : V → Bool) (ms : List V) :
    (∀ v ∈ ms, p v = true) ∨
      ∃ pre v post, ms = pre ++ v :: post ∧ (∀ w ∈ pre, p w = true) ∧ p v = false := by
  cases h : ms.find? fun v => !p v with
  | none =>
    rw [List.find?_eq_none] at h
    exact Or.inl fun v hv => by simpa using h v hv
  | some v =>
    obtain ⟨hv, pre, post, hms, hpre⟩ := List.find?_eq_some_iff_append.mp h
    exact Or.inr ⟨pre, v, post, hms, fun w hw => by simpa using hpre w hw, by simpa using hv⟩

section Modes

variable {σ V : Type} {family : Family V} {options : SearchOptions} {ms pre post : List V}
  {property : V → CheckIn σ Unit} {verdict : V → Verdict} {v : V} {f : Failure} {r : SearchFault}
  {name : String}

/-! ## How a run ends that tried all examples -/

/-- How an exhaustive run ends without a fault. -/
def collected (name : String) (count : Nat) : List Counterexample → Except (RunError V) Report
  | [] => .ok ⟨name, count⟩
  | cs => .error (.counterexamples name count cs)

theorem collected_of_mem {c : Counterexample} {cs : List Counterexample} (hc : c ∈ cs)
    (name : String) (count : Nat) :
    (collected name count cs : Except (RunError V) Report) =
      .error (.counterexamples name count cs) := by
  cases cs with
  | nil => cases hc
  | cons c cs => rfl

/-! ## Fail-fast runs -/

/-- The search of a fail-fast run goes by the verdicts on the members. -/
theorem Family.HasVerdicts.endsIn_firstFailure (h : family.HasVerdicts property verdict)
    (hms : family.members options = .ok ms) {search : Search V} (hsearch : search.members = ms) :
    EndsIn (search.firstFailure fun v => (Run.holds (property v) : Run σ V Bool))
      (.ok (Search.firstFailureIn (fun v => (verdict v).isPass) ms 0)) := by
  subst hsearch
  exact Search.endsIn_firstFailure fun v hv =>
    Run.endsIn_holds (h v (Family.contains_of_mem_members hms hv))

variable [Showable V]

theorem endsIn_runFailFast_of_pass (h : family.HasVerdicts property verdict)
    (hms : family.members options = .ok ms) (hpass : ∀ v ∈ ms, verdict v = .holds) :
    EndsIn (runFailFast name options family property) (.ok ⟨name, ms.length⟩) := by
  obtain ⟨search, hsearch, hmembers⟩ := Family.members_eq_ok_iff.mp hms
  have hfirst : Search.firstFailureIn (fun v => (verdict v).isPass) ms 0 =
      .exhausted ms.length := by
    rw [Search.firstFailureIn_eq_exhausted_iff, Nat.zero_add]
    exact ⟨rfl, fun v hv => Verdict.isPass_iff.mpr (hpass v hv)⟩
  refine .bind (Run.endsIn_search hsearch) (.bind (h.endsIn_firstFailure hms hmembers) ?_)
  rw [hfirst]
  exact Run.endsIn_finish name ms.length

/-- How a fail-fast run ends at a failing member, the `count`th that it tried. -/
def stoppedAt (name : String) (v : V) (count : Nat) : Failure → Except (RunError V) Report
  | .counterexample c => .error (.counterexamples name count [c])
  | f => .error (.ofFault name v f)

theorem stoppedAt_of_fault (hv : (verdict v).fault? = some f) (name : String) (count : Nat) :
    stoppedAt name v count f = .error (.ofFault name v f) := by
  cases f with
  | counterexample c =>
    rw [Verdict.fails_of_fault? hv] at hv
    cases hv
  | _ => rfl

/-- The first failing member is applied once more, and fails as it did before. -/
theorem endsIn_runFailFast_of_fail (h : family.HasVerdicts property verdict)
    (hms : family.members options = .ok (pre ++ v :: post))
    (hpre : ∀ w ∈ pre, verdict w = .holds) (hv : verdict v = .fails f) :
    EndsIn (runFailFast name options family property) (stoppedAt name v (pre.length + 1) f) := by
  obtain ⟨search, hsearch, hmembers⟩ := Family.members_eq_ok_iff.mp hms
  have hfirst : Search.firstFailureIn (fun v => (verdict v).isPass) (pre ++ v :: post) 0 =
      .found v (pre.length + 1) := by
    rw [Search.firstFailureIn_eq_found_iff]
    refine ⟨pre, post, rfl, fun w hw => Verdict.isPass_iff.mpr (hpre w hw), ?_, ?_⟩
    · rw [hv]
      rfl
    · rw [Nat.zero_add]
  refine .bind (Run.endsIn_search hsearch) (.bind (h.endsIn_firstFailure hms hmembers) ?_)
  have hmem : v ∈ pre ++ v :: post := List.mem_append_right pre List.mem_cons_self
  have hagain := Run.endsIn_verdict (V := V) (h v (Family.contains_of_mem_members hms hmem))
  rw [hfirst]
  refine .bind hagain ?_
  rw [hv]
  cases f with
  | counterexample c => exact .bind (Run.endsIn_write _) (.throw _)
  | _ => exact Run.endsIn_abort name v _

theorem endsIn_runFailFast_of_refused (hf : family.members options = .error r) :
    EndsIn (runFailFast name options family property) (.error (.search r)) :=
  .bind_error (Run.endsIn_search_error (Family.members_eq_error_iff.mp hf)) _

/-- The three ways in which a fail-fast run ends. -/
theorem runFailFast_cases (h : family.HasVerdicts property verdict) (name : String)
    (options : SearchOptions) :
    (∃ r, family.members options = .error r ∧
      EndsIn (runFailFast name options family property) (.error (.search r))) ∨
    (∃ ms, family.members options = .ok ms ∧ (∀ v ∈ ms, verdict v = .holds) ∧
      EndsIn (runFailFast name options family property) (.ok ⟨name, ms.length⟩)) ∨
    ∃ pre v post f, family.members options = .ok (pre ++ v :: post) ∧
      (∀ w ∈ pre, verdict w = .holds) ∧ verdict v = .fails f ∧
      EndsIn (runFailFast name options family property) (stoppedAt name v (pre.length + 1) f) := by
  cases hms : family.members options with
  | error r => exact Or.inl ⟨r, rfl, endsIn_runFailFast_of_refused hms⟩
  | ok ms =>
    rcases exists_first (fun v => (verdict v).isPass) ms with hall | hfirst
    · have hpass : ∀ v ∈ ms, verdict v = .holds := fun v hv => Verdict.isPass_iff.mp (hall v hv)
      exact Or.inr (Or.inl ⟨ms, rfl, hpass, endsIn_runFailFast_of_pass h hms hpass⟩)
    · obtain ⟨pre, v, post, rfl, hpre, hv⟩ := hfirst
      have hpass : ∀ w ∈ pre, verdict w = .holds :=
        fun w hw => Verdict.isPass_iff.mp (hpre w hw)
      obtain ⟨f, hv⟩ := Verdict.isPass_eq_false_iff.mp hv
      exact Or.inr (Or.inr ⟨pre, v, post, f, rfl, hpass, hv,
        endsIn_runFailFast_of_fail h hms hpass hv⟩)

/-! ## Exhaustive runs -/

theorem endsIn_checkNext (hv : EndsIn (property v) (verdict v).ending)
    (hfault : (verdict v).fault? = none) (found : List Counterexample) :
    EndsIn (checkNext name property v found)
      (.ok (.yield ((verdict v).counterexample?.toList ++ found))) := by
  refine .bind (Run.endsIn_write _) (.bind (Run.endsIn_verdict hv) ?_)
  cases hverdict : verdict v with
  | holds => exact .pure _
  | fails f =>
    rw [hverdict] at hfault
    cases f with
    | counterexample c => exact .bind (Run.endsIn_write _) (.pure _)
    | _ => cases hfault

theorem endsIn_checkNext_of_fault (hv : EndsIn (property v) (verdict v).ending)
    (hfault : (verdict v).fault? = some f) (found : List Counterexample) :
    EndsIn (checkNext name property v found) (.error (.ofFault name v f)) := by
  refine .bind (Run.endsIn_write _) (.bind (Run.endsIn_verdict hv) ?_)
  rw [Verdict.fails_of_fault? hfault]
  cases f with
  | counterexample c =>
    rw [Verdict.fails_of_fault? hfault] at hfault
    cases hfault
  | _ => exact Run.endsIn_abort name v _

/-- Members without a fault add their counterexamples to those found, newest first, and the
run goes on. -/
theorem endsIn_offerAll_checkNext (h : ∀ w ∈ pre, EndsIn (property w) (verdict w).ending)
    (hpre : ∀ w ∈ pre, (verdict w).fault? = none)
    {r : Except (RunError V) (Nat × List Counterexample)} (count : Nat)
    (found : List Counterexample)
    (hpost : EndsIn (Visits.offerAll (checkNext name property) post (count + pre.length)
      ((pre.filterMap fun w => (verdict w).counterexample?).reverse ++ found)) r) :
    EndsIn (Visits.offerAll (checkNext name property) (pre ++ post) count found) r := by
  induction pre generalizing count found with
  | nil => exact hpost
  | cons w pre ih =>
    rw [List.forall_mem_cons] at h hpre
    rw [List.cons_append, Visits.offerAll]
    refine .bind (endsIn_checkNext h.1 hpre.1 found) (ih h.2 hpre.2 _ _ ?_)
    have hcount : count + 1 + pre.length = count + (w :: pre).length := by
      rw [List.length_cons]
      omega
    have hfound : ((w :: pre).filterMap fun w => (verdict w).counterexample?).reverse ++ found =
        (pre.filterMap fun w => (verdict w).counterexample?).reverse ++
          ((verdict w).counterexample?.toList ++ found) := by
      cases hc : (verdict w).counterexample? <;> simp [hc]
    rw [hcount, ← hfound]
    exact hpost

theorem endsIn_runExhaustive (h : family.HasVerdicts property verdict)
    (hms : family.members options = .ok ms) (hfault : ∀ v ∈ ms, (verdict v).fault? = none) :
    EndsIn (runExhaustive name options family property)
      (collected name ms.length (ms.filterMap fun v => (verdict v).counterexample?)) := by
  obtain ⟨search, hsearch, hmembers⟩ := Family.members_eq_ok_iff.mp hms
  have hends : ∀ v ∈ ms, EndsIn (property v) (verdict v).ending :=
    fun v hv => h v (Family.contains_of_mem_members hms hv)
  have hoffer : EndsIn (search.offer (checkNext name property) [])
      (.ok (ms.length, (ms.filterMap fun v => (verdict v).counterexample?).reverse)) := by
    rw [Search.offer_eq, hmembers, ← List.append_nil ms]
    refine endsIn_offerAll_checkNext hends hfault 0 [] ?_
    rw [List.append_nil, List.append_nil, Nat.zero_add]
    exact .pure _
  refine .bind (Run.endsIn_search hsearch) (.bind hoffer ?_)
  cases hc : ms.filterMap fun v => (verdict v).counterexample? with
  | nil => exact Run.endsIn_finish name ms.length
  | cons c cs =>
    have hne : ((c :: cs).reverse).isEmpty = false := by simp
    dsimp only
    rw [hne, List.reverse_reverse]
    exact .throw _

theorem endsIn_runExhaustive_of_fault (h : family.HasVerdicts property verdict)
    (hms : family.members options = .ok (pre ++ v :: post))
    (hpre : ∀ w ∈ pre, (verdict w).fault? = none) (hv : (verdict v).fault? = some f) :
    EndsIn (runExhaustive name options family property) (.error (.ofFault name v f)) := by
  obtain ⟨search, hsearch, hmembers⟩ := Family.members_eq_ok_iff.mp hms
  have hends : ∀ w ∈ pre ++ v :: post, EndsIn (property w) (verdict w).ending :=
    fun w hw => h w (Family.contains_of_mem_members hms hw)
  refine .bind (Run.endsIn_search hsearch) (.bind_error ?_ _)
  rw [Search.offer_eq, hmembers]
  refine endsIn_offerAll_checkNext (fun w hw => hends w (List.mem_append_left _ hw)) hpre 0 [] ?_
  have hmem : v ∈ pre ++ v :: post := List.mem_append_right pre List.mem_cons_self
  exact .bind_error (endsIn_checkNext_of_fault (hends v hmem) hv _) _

theorem endsIn_runExhaustive_of_refused (hf : family.members options = .error r) :
    EndsIn (runExhaustive name options family property) (.error (.search r)) :=
  .bind_error (Run.endsIn_search_error (Family.members_eq_error_iff.mp hf)) _

/-- The three ways in which an exhaustive run ends. -/
theorem runExhaustive_cases (h : family.HasVerdicts property verdict) (name : String)
    (options : SearchOptions) :
    (∃ r, family.members options = .error r ∧
      EndsIn (runExhaustive name options family property) (.error (.search r))) ∨
    (∃ ms, family.members options = .ok ms ∧ (∀ v ∈ ms, (verdict v).fault? = none) ∧
      EndsIn (runExhaustive name options family property)
        (collected name ms.length (ms.filterMap fun v => (verdict v).counterexample?))) ∨
    ∃ pre v post f, family.members options = .ok (pre ++ v :: post) ∧
      (∀ w ∈ pre, (verdict w).fault? = none) ∧ (verdict v).fault? = some f ∧
      EndsIn (runExhaustive name options family property) (.error (.ofFault name v f)) := by
  cases hms : family.members options with
  | error r => exact Or.inl ⟨r, rfl, endsIn_runExhaustive_of_refused hms⟩
  | ok ms =>
    rcases exists_first (fun v => (verdict v).fault?.isNone) ms with hall | hfirst
    · have hfault : ∀ v ∈ ms, (verdict v).fault? = none :=
        fun v hv => Option.isNone_iff_eq_none.mp (hall v hv)
      exact Or.inr (Or.inl ⟨ms, rfl, hfault, endsIn_runExhaustive h hms hfault⟩)
    · obtain ⟨pre, v, post, rfl, hpre, hv⟩ := hfirst
      have hfault : ∀ w ∈ pre, (verdict w).fault? = none :=
        fun w hw => Option.isNone_iff_eq_none.mp (hpre w hw)
      obtain ⟨f, hv⟩ := Option.isNone_eq_false_iff.mp hv |> Option.isSome_iff_exists.mp
      exact Or.inr (Or.inr ⟨pre, v, post, f, rfl, hfault, hv,
        endsIn_runExhaustive_of_fault h hms hfault hv⟩)

/-! ## How the modes compare -/

theorem runFailFast_ne_passedOnRerun (h : family.HasVerdicts property verdict)
    (s : Session σ V) (who : String) (v : V) :
    ((runFailFast name options family property).run s).1 ≠ .error (.passedOnRerun who v) := by
  intro hs
  rcases runFailFast_cases h name options with
    ⟨r, _, hr⟩ | ⟨ms, _, _, hr⟩ | ⟨pre, w, post, f, _, _, _, hr⟩
  · cases (hr s).symm.trans hs
  · cases (hr s).symm.trans hs
  · have hstop := (hr s).symm.trans hs
    cases f with
    | counterexample c => cases hstop
    | _ => exact RunError.ofFault_ne_passedOnRerun _ _ _ _ _ (Except.error.inj hstop)

/-- The counterexample that a fail-fast run ends in is the first that an exhaustive run
collects. -/
theorem head_of_counterexamples (h : family.HasVerdicts property verdict) {s s' : Session σ V}
    {who who' : String} {n n' : Nat} {cs cs' : List Counterexample}
    (hs : ((runFailFast name options family property).run s).1 =
      .error (.counterexamples who n cs))
    (hs' : ((runExhaustive name options family property).run s').1 =
      .error (.counterexamples who' n' cs')) :
    ∃ c rest, cs = [c] ∧ cs' = c :: rest := by
  rcases runFailFast_cases h name options with
    ⟨r, _, hr⟩ | ⟨ms, _, _, hr⟩ | ⟨pre, v, post, f, hms, hpre, hv, hr⟩
  · cases (hr s).symm.trans hs
  · cases (hr s).symm.trans hs
  have hstop := (hr s).symm.trans hs
  rcases runExhaustive_cases h name options with
    ⟨r', _, hr'⟩ | ⟨ms, hms', _, hr'⟩ | ⟨_, _, _, _, _, _, _, hr'⟩
  · cases (hr' s').symm.trans hs'
  · cases hms'.symm.trans hms
    cases f with
    | counterexample c =>
      have hfound : ((pre ++ v :: post).filterMap fun v => (verdict v).counterexample?) =
          c :: post.filterMap fun v => (verdict v).counterexample? := by
        rw [List.filterMap_append, Verdict.filterMap_counterexample?_of_holds hpre,
          List.nil_append, List.filterMap_cons, hv]
        rfl
      have hall := (hr' s').symm.trans hs'
      rw [hfound] at hall
      cases hstop
      cases hall
      exact ⟨c, _, rfl, rfl⟩
    | _ => exact absurd (Except.error.inj hstop) (RunError.ofFault_ne_counterexamples _ _ _ _ _ _)
  · have hstop' := (hr' s').symm.trans hs'
    exact absurd (Except.error.inj hstop') (RunError.ofFault_ne_counterexamples _ _ _ _ _ _)

end Modes

/-- On examples that all pass, both modes report how many there are. Otherwise a fail-fast
run ends at the first that fails and says how it fails, and an exhaustive run ends at the
first with a fault, or with the counterexamples of all. So a counterexample that a fail-fast
run ends in is the first that an exhaustive run collects, and no fail-fast run takes a
failure back. A value with a fault has to be shown for the run to be aborted on it, and there
are examples only if the cap is a word. -/
theorem fail_fast_and_exhaustive_runs_agree {σ V : Type} [Showable V] {family : Family V}
    {property : V → CheckIn σ Unit} {verdict : V → Verdict}
    (h : family.HasVerdicts property verdict) (name : String) (options : SearchOptions) :
    let failFast := runFailFast name options family property
    let exhaustive := runExhaustive name options family property
    (∀ ms, family.members options = .ok ms →
      ((∀ v ∈ ms, verdict v = .holds) →
        EndsIn failFast (.ok ⟨name, ms.length⟩) ∧ EndsIn exhaustive (.ok ⟨name, ms.length⟩)) ∧
      (∀ pre v post, ms = pre ++ v :: post → (∀ w ∈ pre, verdict w = .holds) →
        (∀ c, verdict v = .fails (.counterexample c) →
          EndsIn failFast (.error (.counterexamples name (pre.length + 1) [c]))) ∧
        ∀ f, (verdict v).fault? = some f →
          (∀ text, Showable.shown v = .ok text →
            EndsIn failFast (.error (.aborted name v text f))) ∧
          ∀ e, Showable.shown v = .error e → EndsIn failFast (.error (.unshown e))) ∧
      (∀ pre v post f, ms = pre ++ v :: post → (∀ w ∈ pre, (verdict w).fault? = none) →
        (verdict v).fault? = some f →
          (∀ text, Showable.shown v = .ok text →
            EndsIn exhaustive (.error (.aborted name v text f))) ∧
          ∀ e, Showable.shown v = .error e → EndsIn exhaustive (.error (.unshown e))) ∧
      ((∀ v ∈ ms, (verdict v).fault? = none) → (∃ v ∈ ms, verdict v ≠ .holds) →
        EndsIn exhaustive (.error (.counterexamples name ms.length
          (ms.filterMap fun v => (verdict v).counterexample?))))) ∧
    ((∃ ms, family.members options = .ok ms) ↔ ∀ cap ∈ options.cap, cap < wordLimit) ∧
    (∀ r, family.members options = .error r →
      EndsIn failFast (.error (.search r)) ∧ EndsIn exhaustive (.error (.search r))) ∧
    (∀ s who v, (failFast.run s).1 ≠ .error (.passedOnRerun who v)) ∧
    ∀ s s' who who' n n' cs cs', (failFast.run s).1 = .error (.counterexamples who n cs) →
      (exhaustive.run s').1 = .error (.counterexamples who' n' cs') →
        ∃ c rest, cs = [c] ∧ cs' = c :: rest := by
  intro failFast exhaustive
  refine ⟨fun ms hms => ⟨?_, ?_, ?_, ?_⟩, family.exists_members_iff options, ?_, ?_, ?_⟩
  · intro hpass
    have hfault : ∀ v ∈ ms, (verdict v).fault? = none := by
      intro v hv
      rw [hpass v hv]
      rfl
    have hall : EndsIn exhaustive _ := endsIn_runExhaustive h hms hfault
    rw [Verdict.filterMap_counterexample?_of_holds hpass] at hall
    exact ⟨endsIn_runFailFast_of_pass h hms hpass, hall⟩
  · rintro pre v post rfl hpre
    constructor
    · intro c hv
      exact endsIn_runFailFast_of_fail h hms hpre hv
    · intro f hv
      have hstop : EndsIn failFast _ :=
        endsIn_runFailFast_of_fail h hms hpre (Verdict.fails_of_fault? hv)
      rw [stoppedAt_of_fault hv] at hstop
      exact Run.endsIn_ofFault hstop
  · rintro pre v post f rfl hpre hv
    exact Run.endsIn_ofFault (endsIn_runExhaustive_of_fault h hms hpre hv)
  · intro hfault hfails
    have hall : EndsIn exhaustive _ := endsIn_runExhaustive h hms hfault
    obtain ⟨v, hv, hne⟩ := hfails
    obtain ⟨c, hc⟩ := Verdict.exists_counterexample hne (hfault v hv)
    have hmem : c ∈ ms.filterMap fun v => (verdict v).counterexample? := by
      rw [List.mem_filterMap]
      refine ⟨v, hv, ?_⟩
      rw [hc]
      rfl
    rwa [collected_of_mem hmem] at hall
  · intro r hr
    exact ⟨endsIn_runFailFast_of_refused hr, endsIn_runExhaustive_of_refused hr⟩
  · exact runFailFast_ne_passedOnRerun h
  · intro s s' who who' n n' cs cs' hs hs'
    exact head_of_counterexamples h hs hs'

/-- Of the terms of type `bool`, one passes, one is a counterexample, and on one the machine
itself fails. -/
theorem fail_fast_and_exhaustive_runs_agree_on_three_terms :
    let family := (Index.termsOfType (.builtin .bool)).family 1
    let yes : Sample := .term (.const ⟨.bool, some true⟩)
    let no : Sample := .term (.const ⟨.bool, some false⟩)
    let c : Counterexample := .typeCheck (.builtin .bool) (.const ⟨.bool, some false⟩)
    let fault : Failure := .evaluation .typed .appliedNonFunction
    let verdict : Sample → Verdict := fun v =>
      if v = yes then .holds else if v = no then .fails (.counterexample c) else .fails fault
    let property : Sample → CheckIn Unit Unit := fun v s => ((verdict v).ending, s)
    let options : SearchOptions := .uncapped 1 .sized
    let capped : SearchOptions := .capped 1 .sized 2 Nat.two_pos
    family.HasVerdicts property verdict ∧
      family.members options = .ok [yes, no, .term .error] ∧
      EndsIn (runFailFast "bools" options family property)
        (.error (.counterexamples "bools" 2 [c])) ∧
      EndsIn (runExhaustive "bools" options family property)
        (.error (.aborted "bools" (.term .error) "ErrorG" fault)) ∧
      family.members capped = .ok [yes, no] ∧
      EndsIn (runExhaustive "bools" capped family property)
        (.error (.counterexamples "bools" 2 [c])) := by
  intro family yes no c fault verdict property options capped
  have h : family.HasVerdicts property verdict := fun v _ s => rfl
  have hms : family.members options = .ok [yes, no, .term .error] := rfl
  have hcapped : family.members capped = .ok [yes, no] := rfl
  have hyes : verdict yes = .holds := rfl
  have hno : verdict no = .fails (.counterexample c) := rfl
  have herror : verdict (.term .error) = .fails fault := rfl
  obtain ⟨_, hfast, hfault, _⟩ :=
    (fail_fast_and_exhaustive_runs_agree h "bools" options).1 _ hms
  obtain ⟨_, _, _, hcollected⟩ :=
    (fail_fast_and_exhaustive_runs_agree h "bools" capped).1 _ hcapped
  refine ⟨h, hms, ?_, ?_, hcapped, ?_⟩
  · exact (hfast [yes] no [.term .error] rfl (List.forall_mem_singleton.mpr hyes)).1 c hno
  · refine (hfault [yes, no] (.term .error) [] fault rfl ?_ ?_).1 _ rfl
    · simp [hyes, hno, Verdict.fault?]
    · rw [herror]
      rfl
  · refine hcollected ?_ ⟨no, by simp, ?_⟩
    · simp [hyes, hno, Verdict.fault?]
    · rw [hno]
      nofun

/-! ## Runs that end in neither way -/

/-- An integer is no positional syntax. -/
instance : Showable Int := ⟨fun n => .error ⟨toString n⟩, toString⟩

/-- The sizes of a search, each as a value of itself. -/
def Family.sizes : Family Int := ⟨[fun n => [(n : Int)]], fun _ => true⟩

/-- There are two types of size one, and the property holds of both, but with a cap that is no
word neither run gets to them. A property with a fault at every size aborts no run, because a
size cannot be shown. -/
theorem a_huge_cap_or_an_unshown_value_ends_both_runs_otherwise :
    let types := (Index.typesOfKind .star).family 0
    let passing : Sample → CheckIn Unit Unit := fun _ s => (.ok (), s)
    let uncapped : SearchOptions := .uncapped 1 .sized
    let huge : SearchOptions := .capped 1 .sized wordLimit wordLimit_pos
    let fault : Failure := .generator (.reported "inconsistent generator")
    let failing : Int → CheckIn Unit Unit := fun _ s => (.error (.failure fault), s)
    types.HasVerdicts passing (fun _ => .holds) ∧
      types.members uncapped = .ok [.type (.builtin .unit), .type (.builtin .bool)] ∧
      EndsIn (runFailFast "kinds" huge types passing) (.error (.search (.capNotWord wordLimit))) ∧
      EndsIn (runExhaustive "kinds" huge types passing)
        (.error (.search (.capNotWord wordLimit))) ∧
      Family.sizes.HasVerdicts failing (fun _ => .fails fault) ∧
      Family.sizes.members uncapped = .ok [1] ∧
      EndsIn (runFailFast "sizes" uncapped .sizes failing) (.error (.unshown ⟨"1"⟩)) ∧
      EndsIn (runExhaustive "sizes" uncapped .sizes failing) (.error (.unshown ⟨"1"⟩)) := by
  intro types passing uncapped huge fault failing
  have hrefused : types.members huge = .error (.capNotWord wordLimit) := by
    rw [types.members_eq, SearchOptions.countedCap_of_le rfl (Nat.le_refl wordLimit)]
    rfl
  have hfails : Family.sizes.HasVerdicts failing fun _ => .fails fault := fun _ _ _ => rfl
  have hms : Family.sizes.members uncapped = .ok ([] ++ 1 :: []) := rfl
  exact ⟨fun _ _ _ => rfl, rfl, endsIn_runFailFast_of_refused hrefused,
    endsIn_runExhaustive_of_refused hrefused, hfails, hms,
    endsIn_runFailFast_of_fail hfails hms nofun rfl,
    endsIn_runExhaustive_of_fault hfails hms nofun rfl⟩

end FomegaLab
