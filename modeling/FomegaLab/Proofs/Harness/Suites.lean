-- A run of a suite is the sequence of the runs of its cases. A case whose property looks at
-- the example only ends the same whatever ran before it, so the reports of a suite are the
-- ones that the cases give alone, and the first case without a report ends the run.
import FomegaLab.Harness.Suite
import FomegaLab.Proofs.Harness.Endings
import Mathlib.Data.List.Forall2

namespace FomegaLab

/-! ## Steady computations -/

/-- However the computation ends, breakdowns included, it ends so from every state. -/
def Steady {ε σ α : Type} (x : ExceptT ε (StateM σ) α) : Prop :=
  ∃ r, EndsIn x r

namespace Steady

variable {ε σ α β : Type} {x : ExceptT ε (StateM σ) α}

theorem pure (a : α) : Steady (Pure.pure a : ExceptT ε (StateM σ) α) := ⟨_, EndsIn.pure a⟩

theorem throw (e : ε) : Steady (MonadExcept.throw e : ExceptT ε (StateM σ) α) :=
  ⟨_, EndsIn.throw e⟩

theorem bind (hx : Steady x) {f : α → ExceptT ε (StateM σ) β} (hf : ∀ a, Steady (f a)) :
    Steady (x >>= f) := by
  obtain ⟨r, hr⟩ := hx
  cases r with
  | error e => exact ⟨_, hr.bind_error f⟩
  | ok a =>
    obtain ⟨r', hr'⟩ := hf a
    exact ⟨r', hr.bind hr'⟩

/-- One run tells how a steady computation ends. -/
theorem endsIn (hx : Steady x) (s : σ) : EndsIn x (x.run s).1 := by
  obtain ⟨r, hr⟩ := hx
  rwa [hr s]

theorem offerAll {V : Type} {f : V → β → ExceptT ε (StateM σ) (ForInStep β)}
    (hf : ∀ v b, Steady (f v b)) (vs : List V) (count : Nat) (b : β) :
    Steady (Visits.offerAll f vs count b) := by
  induction vs generalizing count b with
  | nil => exact .pure _
  | cons v vs ih =>
    refine .bind (hf v b) fun r => ?_
    cases r with
    | done b => exact .pure _
    | yield b => exact ih (count + 1) b

theorem offer {V : Type} {f : V → β → ExceptT ε (StateM σ) (ForInStep β)}
    (hf : ∀ v b, Steady (f v b)) (search : Search V) (b : β) : Steady (search.offer f b) := by
  rw [Search.offer_eq]
  exact offerAll hf search.members 0 b

theorem firstFailure {V : Type} {holds : V → ExceptT ε (StateM σ) Bool}
    (h : ∀ v, Steady (holds v)) (search : Search V) : Steady (search.firstFailure holds) := by
  refine .bind (offer (fun v _ => .bind (h v) fun answer => ?_) search none) fun r => ?_
  · cases answer <;> exact .pure _
  · obtain ⟨count, found | v⟩ := r <;> exact .pure _

end Steady

/-! ## Steady runs of a property -/

section Property

variable {σ V : Type} {property : V → CheckIn σ Unit}

namespace Run

theorem steady_write (e : Entry V) : Steady (Run.write e : Run σ V Unit) :=
  ⟨_, endsIn_write e⟩

theorem steady_search (family : Family V) (options : SearchOptions) :
    Steady (Run.search family options : Run σ V (Search V)) := by
  unfold Run.search
  cases family.toSearch options with
  | ok search => exact .pure search
  | error f => exact .throw _

theorem steady_verdict {check : CheckIn σ Unit} (h : Steady check) :
    Steady (Run.verdict check : Run σ V Verdict) := by
  obtain ⟨r, hr⟩ := h
  have hrun : EndsIn (ExceptT.lift (Session.within check.run) : Run σ V _) (.ok r) :=
    fun s => congrArg Except.ok (hr s.state)
  refine .bind ⟨_, hrun⟩ fun r => ?_
  obtain ⟨⟨f⟩ | ⟨b⟩⟩ | ⟨⟩ := r
  · exact .pure _
  · exact .throw _
  · exact .pure _

theorem steady_holds {check : CheckIn σ Unit} (h : Steady check) :
    Steady (Run.holds check : Run σ V Bool) := by
  refine .bind (steady_verdict h) fun v => ?_
  cases v <;> exact .pure _

end Run

variable [Showable V]

theorem steady_runFailFast (h : ∀ v, Steady (property v)) (name : String)
    (options : SearchOptions) (family : Family V) :
    Steady (runFailFast name options family property) := by
  refine .bind (Run.steady_search family options) fun search => ?_
  refine .bind (.firstFailure (fun v => Run.steady_holds (h v)) search) fun result => ?_
  cases result with
  | exhausted count => exact ⟨_, Run.endsIn_finish name count⟩
  | found v count =>
    refine .bind (Run.steady_verdict (h v)) fun verdict => ?_
    cases verdict with
    | holds => exact .throw _
    | fails f =>
      cases f with
      | counterexample c => exact .bind (Run.steady_write _) fun _ => .throw _
      | _ => exact ⟨_, Run.endsIn_abort name v _⟩

theorem steady_checkNext (h : ∀ v, Steady (property v)) (name : String) (v : V)
    (found : List Counterexample) : Steady (checkNext name property v found) := by
  refine .bind (Run.steady_write _) fun _ => .bind (Run.steady_verdict (h v)) fun verdict => ?_
  cases verdict with
  | holds => exact .pure _
  | fails f =>
    cases f with
    | counterexample c => exact .bind (Run.steady_write _) fun _ => .pure _
    | _ => exact ⟨_, Run.endsIn_abort name v _⟩

theorem steady_runExhaustive (h : ∀ v, Steady (property v)) (name : String)
    (options : SearchOptions) (family : Family V) :
    Steady (runExhaustive name options family property) := by
  refine .bind (Run.steady_search family options) fun search => ?_
  refine .bind (.offer (steady_checkNext h name) search []) fun r => ?_
  obtain ⟨count, found⟩ := r
  cases found with
  | nil => exact ⟨_, Run.endsIn_finish name count⟩
  | cons c found => exact .throw _

/-- In both modes, the state changes nothing about the end of a run. -/
theorem steady_runProperty (h : ∀ v, Steady (property v)) (mode : RunMode) (name : String)
    (options : SearchOptions) (family : Family V) :
    Steady (runProperty mode name options family property) := by
  cases mode with
  | failFast => exact steady_runFailFast h name options family
  | exhaustive => exact steady_runExhaustive h name options family

end Property

/-! ## Options of the cases -/

namespace SuiteConfig

variable {σ V : Type} {config : SuiteConfig} {c : PropertyCase σ V} {options : SearchOptions}

/-- What a case is searched with. The depth is the override for its name, or its own one.
The cap is that of the configuration, or its own one. -/
structure Effective (config : SuiteConfig) (c : PropertyCase σ V) (options : SearchOptions) :
    Prop where
  depth : (options.depth : Int) = (config.depths.lookup c.name).getD c.depth
  strategy : options.strategy = config.options.strategy
  cap : options.cap.map Int.ofNat = (config.options.cap.map Int.ofNat).or c.cap

theorem optionsFor_eq_make : config.optionsFor c =
    SearchOptions.make ((config.depths.lookup c.name).getD c.depth) config.options.strategy
      ((config.options.cap.map Int.ofNat).or c.cap) := by
  unfold optionsFor
  cases config.options.cap <;> rfl

/-- A case is run with its options, if a search can have them. -/
theorem optionsFor_eq_ok_iff : config.optionsFor c = .ok options ↔ config.Effective c options := by
  rw [optionsFor_eq_make, SearchOptions.make_eq_ok_iff_eq]
  exact ⟨fun ⟨hdepth, hstrategy, hcap⟩ => ⟨hdepth, hstrategy, hcap⟩,
    fun ⟨hdepth, hstrategy, hcap⟩ => ⟨hdepth, hstrategy, hcap⟩⟩

/-- The names that are refused are the ones with an override and no case. -/
theorem mem_unknownNames_iff {cases : List (PropertyCase σ V)} {name : String} :
    name ∈ config.unknownNames cases ↔
      (∃ o ∈ config.depths, o.1 = name) ∧ ∀ c ∈ cases, c.name ≠ name := by
  simp [unknownNames]

end SuiteConfig

/-! ## Runs of a suite -/

namespace SuiteRun

variable {σ V : Type} [Showable V] {config : SuiteConfig} {s : Session σ V}
  {cases pre : List (PropertyCase σ V)} {c : PropertyCase σ V} {options : SearchOptions}
  {reports : List Report} {e : SuiteError V}

/-- If each override names a case, the cases are run. -/
theorem runSuite_eq_runCases (h : ∀ o ∈ config.depths, ∃ c ∈ cases, c.name = o.1) :
    runSuite config cases = runCases config cases := by
  have hnil : config.unknownNames cases = [] := by
    rw [List.eq_nil_iff_forall_not_mem]
    intro name hname
    obtain ⟨⟨o, ho, rfl⟩, hno⟩ := SuiteConfig.mem_unknownNames_iff.mp hname
    obtain ⟨c, hc, hco⟩ := h o ho
    exact hno c hc hco
  rw [runSuite, hnil]

/-- An override that names no case is refused, and the session stays as it was. -/
theorem runSuite_of_unknown {o : String × Int} (ho : o ∈ config.depths)
    (hno : ∀ c ∈ cases, c.name ≠ o.1) :
    (runSuite config cases).run s =
      (.error (.unknownOverrides (sortedTexts (config.unknownNames cases))), s) := by
  have hmem : o.1 ∈ config.unknownNames cases :=
    SuiteConfig.mem_unknownNames_iff.mpr ⟨⟨o, ho, rfl⟩, hno⟩
  unfold runSuite
  cases hnames : config.unknownNames cases with
  | nil =>
    rw [hnames] at hmem
    cases hmem
  | cons name names => rfl

/-- How a case ends is how the run of its property ends. -/
theorem endsIn_runCase (hoptions : config.Effective c options)
    {r : Except (RunError V) Report}
    (h : EndsIn (runProperty config.mode c.name options c.family c.property) r) :
    EndsIn (runCase config c) (r.mapError .run) := by
  rw [runCase, SuiteConfig.optionsFor_eq_ok_iff.mpr hoptions]
  have hrun : EndsIn (ExceptT.lift (runProperty config.mode c.name options c.family
      c.property).run : SuiteRun σ V _) (.ok r) :=
    fun s => congrArg Except.ok (h s)
  refine .bind (a := ()) (fun _ => rfl) (.bind hrun ?_)
  cases r with
  | ok report => exact .pure report
  | error e => exact .throw _

/-- Cases that all end in reports end in the list of them. -/
theorem endsIn_runCases {result : PropertyCase σ V → Except (SuiteError V) Report}
    (hcase : ∀ c ∈ cases, EndsIn (runCase config c) (result c))
    (h : List.Forall₂ (fun c report => result c = .ok report) cases reports) :
    EndsIn (runCases config cases) (.ok reports) := by
  induction h with
  | nil => exact .pure []
  | cons hc _ ih =>
    obtain ⟨hfirst, hrest⟩ := List.forall_mem_cons.mp hcase
    rw [hc] at hfirst
    exact .bind hfirst (.bind (ih hrest) (.pure _))

/-- Some cases and then others are run in this order. -/
theorem runCases_append (pre post : List (PropertyCase σ V)) :
    runCases config (pre ++ post) = do
      let reports ← runCases config pre
      let later ← runCases config post
      return reports ++ later := by
  induction pre with
  | nil => simp [runCases]
  | cons c pre ih => simp [runCases, ih]

/-- If a run ends without reports, cases after the ones that it was about are not run. -/
theorem runCases_append_of_error (h : ((runCases config pre).run s).1 = .error e)
    (post : List (PropertyCase σ V)) :
    (runCases config (pre ++ post)).run s = (runCases config pre).run s := by
  rw [runCases_append, EndsIn.run_bind, h]
  exact Prod.ext h.symm rfl

/-- After reports, the end of one case is the end of the run. -/
theorem endsIn_runCases_of_error (hpre : EndsIn (runCases config pre) (.ok reports))
    (hc : EndsIn (runCase config c) (.error e)) :
    EndsIn (runCases config (pre ++ [c])) (.error e) := by
  rw [runCases_append]
  exact .bind hpre (.bind_error (.bind_error hc _) _)

end SuiteRun

/-- A suite with an override for a name that no case has is refused, and no case is run.
Otherwise a run of the suite gives what its cases give alone: their reports in order, or the
error of the first case without a report. In that event the run is the one of the cases up to
this one, so that no later property is applied. -/
theorem a_suite_run_is_the_sequence_of_its_cases {σ V : Type} [Showable V] (config : SuiteConfig)
    (cases : List (PropertyCase σ V)) (hsteady : ∀ c ∈ cases, ∀ v, Steady (c.property v))
    (s : Session σ V) :
    ((∃ o ∈ config.depths, ∀ c ∈ cases, c.name ≠ o.1) →
      ∃ names,
        (SuiteRun.runSuite config cases).run s = (.error (.unknownOverrides names), s) ∧
        ∀ name, name ∈ names ↔
          (∃ o ∈ config.depths, o.1 = name) ∧ ∀ c ∈ cases, c.name ≠ name) ∧
    ((∀ o ∈ config.depths, ∃ c ∈ cases, c.name = o.1) →
      ∀ options : PropertyCase σ V → SearchOptions,
      (∀ c ∈ cases, config.Effective c (options c)) →
      ∀ alone : Session σ V,
      let result : PropertyCase σ V → Except (RunError V) Report := fun c =>
        ((runProperty config.mode c.name (options c) c.family c.property).run alone).1
      (∀ reports, List.Forall₂ (fun c report => result c = .ok report) cases reports →
        ((SuiteRun.runSuite config cases).run s).1 = .ok reports) ∧
      ∀ pre c post reports e, cases = pre ++ c :: post →
        List.Forall₂ (fun c report => result c = .ok report) pre reports →
        result c = .error e →
        ((SuiteRun.runSuite config cases).run s).1 = .error (.run e) ∧
        (SuiteRun.runSuite config cases).run s =
          (SuiteRun.runCases config (pre ++ [c])).run s) := by
  constructor
  · rintro ⟨o, ho, hno⟩
    refine ⟨_, SuiteRun.runSuite_of_unknown ho hno, fun name => ?_⟩
    rw [sortedTexts, List.mem_mergeSort]
    exact SuiteConfig.mem_unknownNames_iff
  · intro hnames options hoptions alone result
    rw [SuiteRun.runSuite_eq_runCases hnames]
    -- what a case gives alone is how it ends from every session, so also in the suite
    have hcase : ∀ c ∈ cases, EndsIn (SuiteRun.runCase config c)
        ((result c).mapError .run) := fun c hc =>
      SuiteRun.endsIn_runCase (hoptions c hc)
        ((steady_runProperty (hsteady c hc) _ _ _ _).endsIn alone)
    have hreports : ∀ {cs reports}, (∀ c ∈ cs, c ∈ cases) →
        List.Forall₂ (fun c report => result c = .ok report) cs reports →
        EndsIn (SuiteRun.runCases config cs) (.ok reports) := by
      intro cs reports hcs h
      refine SuiteRun.endsIn_runCases (fun c hc => hcase c (hcs c hc)) (h.imp ?_)
      intro c report hc
      rw [hc]
      rfl
    constructor
    · intro reports h
      exact hreports (fun _ => id) h s
    · rintro pre c post reports e rfl hpre hc
      have hlast := hcase c (List.mem_append_right pre List.mem_cons_self)
      rw [hc] at hlast
      have hstop := SuiteRun.endsIn_runCases_of_error
        (hreports (fun _ => List.mem_append_left _) hpre) hlast
      have hrun : (SuiteRun.runCases config (pre ++ c :: post)).run s =
          (SuiteRun.runCases config (pre ++ [c])).run s := by
        rw [← SuiteRun.runCases_append_of_error (hstop s) post, List.append_assoc]
        rfl
      exact ⟨hrun ▸ hstop s, hrun⟩

/-- Of three cases, two have one name and with it one override. The second one ends with a
counterexample. The state counts the examples that properties were applied to, two by each of
the first two cases and none by the last one. -/
theorem a_suite_run_is_the_sequence_of_its_cases_with_a_repeated_name :
    let bool : PosTy := .builtin .bool
    let found : Counterexample := .kindCheck .star bool
    let types := (Index.typesOfKind .star).family 0
    let passing : Sample → CheckIn Nat Unit := fun _ n => (.ok (), n + 1)
    let failing : Sample → CheckIn Nat Unit := fun v n =>
      (if v = .type bool then .error (.failure (.counterexample found)) else .ok (), n + 1)
    let first : PropertyCase Nat Sample := ⟨"types", 5, types, passing, some 3⟩
    let second : PropertyCase Nat Sample := ⟨"types", 7, types, failing, none⟩
    let third : PropertyCase Nat Sample := ⟨"more types", 2, types, passing, none⟩
    let cases := [first, second, third]
    let config : SuiteConfig := ⟨.default, .exhaustive, [("types", 1)]⟩
    let mistaken : SuiteConfig := ⟨.default, .exhaustive, [("type", 1)]⟩
    (∀ c ∈ cases, ∀ v, Steady (c.property v)) ∧
      ((SuiteRun.runSuite config cases).run (.start 0)).1 =
        .error (.run (.counterexamples "types" 2 [found])) ∧
      ((SuiteRun.runSuite config cases).run (.start 0)).2.state = 4 ∧
      ∃ names, (SuiteRun.runSuite mistaken cases).run (.start 0) =
          (.error (.unknownOverrides names), .start 0) ∧
        ∀ name, name ∈ names ↔ name = "type" := by
  intro bool found types passing failing first second third cases config mistaken
  have hsteady : ∀ c ∈ cases, ∀ v, Steady (c.property v) := by
    have hpassing : ∀ v, Steady (passing v) := fun _ => ⟨_, fun _ => rfl⟩
    have hfailing : ∀ v, Steady (failing v) := fun _ => ⟨_, fun _ => rfl⟩
    simp [cases, first, second, third, hpassing, hfailing]
  let options : PropertyCase Nat Sample → SearchOptions := fun c =>
    if c.name = "types" then
      if c.cap = none then .uncapped 1 .sized else .capped 1 .sized 3 (by decide)
    else .uncapped 2 .sized
  obtain ⟨_, hrun⟩ :=
    a_suite_run_is_the_sequence_of_its_cases config cases hsteady (.start 0)
  have hnames : ∀ o ∈ config.depths, ∃ c ∈ cases, c.name = o.1 := by
    simp [config, cases, first]
  have hoptions : ∀ c ∈ cases, config.Effective c (options c) := by
    simp only [cases, List.forall_mem_cons]
    exact ⟨⟨rfl, rfl, rfl⟩, ⟨rfl, rfl, rfl⟩, ⟨rfl, rfl, rfl⟩, List.forall_mem_nil _⟩
  obtain ⟨hend, hsame⟩ := (hrun hnames options hoptions (.start 0)).2 [first] second [third]
    [⟨"types", 2⟩] (.counterexamples "types" 2 [found]) rfl (.cons rfl .nil) rfl
  refine ⟨hsteady, hend, ?_, ?_⟩
  · rw [hsame]
    rfl
  · have hno : ∃ o ∈ mistaken.depths, ∀ c ∈ cases, c.name ≠ o.1 := by
      simp [mistaken, cases, first, second, third]
    obtain ⟨names, hrefused, hmem⟩ :=
      (a_suite_run_is_the_sequence_of_its_cases mistaken cases hsteady (.start 0)).1 hno
    refine ⟨names, hrefused, fun name => (hmem name).trans ⟨?_, ?_⟩⟩
    · rintro ⟨⟨o, ho, rfl⟩, _⟩
      cases List.mem_singleton.mp ho
      rfl
    · rintro rfl
      obtain ⟨o, ho, hno⟩ := hno
      cases List.mem_singleton.mp ho
      exact ⟨⟨_, ho, rfl⟩, hno⟩

end FomegaLab
