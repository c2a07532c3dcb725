-- Running a suite with a configuration that a document gave. A document is refused if it
-- sets a negative depth for all properties, but not if it sets one for a single property.
-- Such an override is met when the case is reached, after the cases before it have run.
import FomegaLab.Proofs.Config.Accepted
import FomegaLab.Proofs.Harness.Suites

namespace FomegaLab

/-! ## Reading overrides -/

/-- An accepted configuration overrides what the entries under `depths` say. -/
theorem SuiteConfig.exists_entry_of_mem_depths {m : Mapping} {config : SuiteConfig}
    (h : ofMapping m = .ok config) {o : String × Int} (ho : o ∈ config.depths) :
    ∃ entries, m.get? "depths" = some (.map entries) ∧ (.text o.1, .int o.2) ∈ entries := by
  rcases ofMapping_eq_ok_iff.mp h with h | ⟨_, h⟩
  · have hdepths := h.depths
    unfold Mapping.Gives at hdepths
    cases hget : m.get? "depths" with
    | none =>
      rw [hget] at hdepths
      rw [hdepths] at ho
      cases ho
    | some d =>
      rw [hget] at hdepths
      obtain ⟨entries, rfl, hentry⟩ := hdepths.exists_entry ho
      exact ⟨entries, rfl, hentry⟩
  · rw [Mapping.gives_erase_self_iff.mp h.depths] at ho
    cases ho

/-! ## Options of the cases -/

/-- A case with a depth and a cap that are fine is refused for a negative override only. -/
theorem SuiteConfig.optionsFor_eq_error_iff {σ V : Type} {config : SuiteConfig}
    {c : PropertyCase σ V} (hdepth : 0 ≤ c.depth) (hcap : ∀ n ∈ c.cap, 1 ≤ n) {f : OptionsFault} :
    config.optionsFor c = .error f ↔
      ∃ d < 0, config.depths.lookup c.name = some d ∧ f = .negativeDepth d := by
  rw [optionsFor, SearchOptions.make_eq_error_iff]
  constructor
  · rintro (⟨hd, rfl⟩ | ⟨_, n, hn, hlt, _⟩)
    · cases hlookup : config.depths.lookup c.name with
      | none =>
        rw [hlookup] at hd
        exact absurd hd (Int.not_lt.mpr hdepth)
      | some d =>
        rw [hlookup] at hd
        exact ⟨d, hd, rfl, rfl⟩
    · -- a cap comes from the options, which have a positive one, or from the case
      cases hconfig : config.options.cap with
      | none =>
        rw [hconfig] at hn
        have := hcap n hn
        omega
      | some cap =>
        rw [hconfig] at hn
        cases hn
        have := config.options.cap_pos cap hconfig
        omega
  · rintro ⟨d, hd, hlookup, rfl⟩
    rw [hlookup]
    exact Or.inl ⟨hd, rfl⟩

/-! ## Runs of a suite -/

namespace SuiteRun

variable {σ V : Type} [Showable V] {config : SuiteConfig} {s : Session σ V} {f : OptionsFault}

theorem runCase_eq_options_iff {c : PropertyCase σ V} :
    ((runCase config c).run s).1 = .error (.options f) ↔ config.optionsFor c = .error f := by
  rw [runCase]
  cases config.optionsFor c with
  | error f' =>
    change Except.error (SuiteError.options (V := V) f') = _ ↔ _
    simp
  | ok options =>
    -- the case is run, and however the run of the property ends, it is not in this way
    simp only [EndsIn.run_bind, EndsIn.run_lift]
    constructor
    · intro h
      split at h <;> cases h
    · intro h
      cases h

theorem runCases_cons_of_error {c : PropertyCase σ V} {e : SuiteError V}
    (h : ((runCase config c).run s).1 = .error e) (cases : List (PropertyCase σ V)) :
    ((runCases config (c :: cases)).run s).1 = .error e := by
  rw [runCases, EndsIn.run_bind, h]

theorem runCases_cons_of_ok {c : PropertyCase σ V} {report : Report}
    (h : ((runCase config c).run s).1 = .ok report) (cases : List (PropertyCase σ V)) :
    ((runCases config (c :: cases)).run s).1 =
      ((runCases config cases).run ((runCase config c).run s).2).1.map (report :: ·) := by
  rw [runCases, EndsIn.run_bind, h]
  simp only [EndsIn.run_bind]
  generalize (runCases config cases).run _ = out
  obtain ⟨reports | reports, s'⟩ := out <;> rfl

/-- Only a case with refused options ends a run with them, and the run reaches it with reports
on all cases before. -/
theorem exists_refused_of_runCases {cases : List (PropertyCase σ V)}
    (h : ((runCases config cases).run s).1 = .error (.options f)) :
    ∃ pre c post, cases = pre ++ c :: post ∧ config.optionsFor c = .error f ∧
      ∃ reports, ((runCases config pre).run s).1 = .ok reports := by
  induction cases generalizing s with
  | nil => cases h
  | cons c cases ih =>
    cases hcase : ((runCase config c).run s).1 with
    | error e =>
      rw [runCases_cons_of_error hcase] at h
      cases h
      exact ⟨[], c, cases, rfl, runCase_eq_options_iff.mp hcase, [], rfl⟩
    | ok report =>
      rw [runCases_cons_of_ok hcase] at h
      cases hrest : ((runCases config cases).run ((runCase config c).run s).2).1 with
      | ok reports =>
        rw [hrest] at h
        cases h
      | error e =>
        rw [hrest] at h
        cases h
        obtain ⟨pre, c', post, rfl, hf, reports, hpre⟩ := ih hrest
        refine ⟨c :: pre, c', post, rfl, hf, report :: reports, ?_⟩
        rw [runCases_cons_of_ok hcase, hpre]
        rfl

/-- The run of some cases ends with refused options exactly if it reaches such a case, with
reports on all cases before it. -/
theorem runCases_eq_options_iff {cases : List (PropertyCase σ V)} :
    ((runCases config cases).run s).1 = .error (.options f) ↔
      ∃ pre c post, cases = pre ++ c :: post ∧ config.optionsFor c = .error f ∧
        ∃ reports, ((runCases config pre).run s).1 = .ok reports := by
  refine ⟨exists_refused_of_runCases, ?_⟩
  rintro ⟨pre, c, post, rfl, hf, reports, hpre⟩
  rw [runCases_append, EndsIn.run_bind, hpre]
  have hcase : ((runCase config c).run ((runCases config pre).run s).2).1 =
      .error (.options f) := runCase_eq_options_iff.mpr hf
  simp only [EndsIn.run_bind, runCases_cons_of_error hcase]

end SuiteRun

/-- On cases with settings that are fine, an accepted configuration whose overrides name
cases is refused for a negative override only, and then not before the run reaches the
case that it is for, with reports on all cases before. If the document holds no negative
override, then no case is refused. -/
theorem accepted_overrides_are_refused_only_if_negative {m : Mapping} {config : SuiteConfig}
    (hconfig : SuiteConfig.ofMapping m = .ok config) {σ V : Type} [Showable V]
    {cases : List (PropertyCase σ V)} (hdepth : ∀ c ∈ cases, 0 ≤ c.depth)
    (hcap : ∀ c ∈ cases, ∀ n ∈ c.cap, 1 ≤ n)
    (hnames : ∀ o ∈ config.depths, ∃ c ∈ cases, c.name = o.1) :
    (∀ s f, ((SuiteRun.runSuite config cases).run s).1 = .error (.options f) ↔
      ∃ pre c post, cases = pre ++ c :: post ∧
        (∃ d < 0, config.depths.lookup c.name = some d ∧ f = .negativeDepth d) ∧
        ∃ reports, ((SuiteRun.runCases config pre).run s).1 = .ok reports) ∧
    ((∀ entries name d, m.get? "depths" = some (.map entries) →
        (.text name, .int d) ∈ entries → 0 ≤ d) →
      (∀ c ∈ cases, ∃ options, config.optionsFor c = .ok options) ∧
      ∀ s f, ((SuiteRun.runSuite config cases).run s).1 ≠ .error (.options f)) := by
  have hrefused : ∀ c ∈ cases, ∀ f, config.optionsFor c = .error f ↔
      ∃ d < 0, config.depths.lookup c.name = some d ∧ f = .negativeDepth d :=
    fun c hc f => SuiteConfig.optionsFor_eq_error_iff (hdepth c hc) (hcap c hc)
  constructor
  · intro s f
    rw [SuiteRun.runSuite_eq_runCases hnames, SuiteRun.runCases_eq_options_iff]
    refine exists_congr fun pre => exists_congr fun c => exists_congr fun post =>
      and_congr_right fun hsplit => and_congr_left fun _ => hrefused c ?_ f
    rw [hsplit]
    exact List.mem_append_right pre List.mem_cons_self
  · intro hm
    have hok : ∀ c ∈ cases, ∃ options, config.optionsFor c = .ok options := by
      intro c hc
      cases hoptions : config.optionsFor c with
      | ok options => exact ⟨options, rfl⟩
      | error f =>
        obtain ⟨d, hd, hlookup, _⟩ := (hrefused c hc f).mp hoptions
        have hmem : (c.name, d) ∈ config.depths := by
          obtain ⟨before, after, hsplit, _⟩ := List.lookup_eq_some_iff.mp hlookup
          rw [hsplit]
          exact List.mem_append_right before List.mem_cons_self
        obtain ⟨entries, hget, hentry⟩ := SuiteConfig.exists_entry_of_mem_depths hconfig hmem
        exact absurd hd (Int.not_lt.mpr (hm entries c.name d hget hentry))
    refine ⟨hok, fun s f h => ?_⟩
    rw [SuiteRun.runSuite_eq_runCases hnames, SuiteRun.runCases_eq_options_iff] at h
    obtain ⟨pre, c, post, rfl, hf, _⟩ := h
    obtain ⟨options, hoptions⟩ := hok c (List.mem_append_right pre List.mem_cons_self)
    rw [hoptions] at hf
    cases hf

theorem accepted_overrides_are_refused_only_if_negative_on_two_cases :
    let m : Mapping :=
      [(.text "mode", .text "fail-fast"), (.text "depths", .map [(.text "second", .int 0)])]
    let config : SuiteConfig := ⟨.default, .failFast, [("second", 0)]⟩
    let types : Index := .typesOfKind .star
    let first : PropertyCase Int Sample :=
      ⟨"first", 1, types.family 0, Property.ofTypeLaw Laws.kindCheckingSound types, some 1⟩
    let cases := [first, { first with name := "second" }]
    SuiteConfig.ofMapping m = .ok config ∧ (∀ c ∈ cases, 0 ≤ c.depth) ∧
      (∀ c ∈ cases, ∀ n ∈ c.cap, 1 ≤ n) ∧ (∀ o ∈ config.depths, ∃ c ∈ cases, c.name = o.1) ∧
      (∀ c ∈ cases, ∃ options, config.optionsFor c = .ok options) ∧
      ∀ s f, ((SuiteRun.runSuite config cases).run s).1 ≠ .error (.options f) := by
  intro m config types first cases
  have hconfig : SuiteConfig.ofMapping m = .ok config := rfl
  have hdepth : ∀ c ∈ cases, 0 ≤ c.depth := by simp [cases, first]
  have hcap : ∀ c ∈ cases, ∀ n ∈ c.cap, 1 ≤ n := by simp [cases, first]
  have hnames : ∀ o ∈ config.depths, ∃ c ∈ cases, c.name = o.1 := by simp [config, cases]
  have hm : ∀ entries name d, m.get? "depths" = some (.map entries) →
      (.text name, .int d) ∈ entries → 0 ≤ d := by
    intro entries name d hget hentry
    cases hget
    cases hentry with
    | head => exact Int.le_refl 0
    | tail _ h => cases h
  obtain ⟨_, hfine⟩ := accepted_overrides_are_refused_only_if_negative hconfig hdepth hcap hnames
  exact ⟨hconfig, hdepth, hcap, hnames, hfine hm⟩

/-- A document may set a depth of -1 for a single property, though not for all. The run
reports on the first case and then ends because of the depth of the second one. -/
theorem a_negative_override_is_met_after_a_case_has_run :
    let m : Mapping := [(.text "depths", .map [(.text "second", .int (-1))])]
    let config : SuiteConfig := ⟨.default, .exhaustive, [("second", -1)]⟩
    let types : Index := .typesOfKind .star
    let first : PropertyCase Int Sample :=
      ⟨"first", 1, types.family 0, Property.ofTypeLaw Laws.kindCheckingSound types, none⟩
    let cases := [first, { first with name := "second" }]
    SuiteConfig.ofMapping [(.text "depth", .int (-1))] =
        .error (.options (.negativeDepth (-1))) ∧
      SuiteConfig.ofMapping m = .ok config ∧ (∀ c ∈ cases, 0 ≤ c.depth) ∧
      (∀ c ∈ cases, ∀ n ∈ c.cap, 1 ≤ n) ∧ (∀ o ∈ config.depths, ∃ c ∈ cases, c.name = o.1) ∧
      ∃ s, (SuiteRun.runSuite config cases).run (.start 0) =
          (.error (.options (.negativeDepth (-1))), s) ∧
        s.journal.head? = some (.finished ⟨"first", 2⟩) := by
  intro m config types first cases
  refine ⟨rfl, rfl, ?_, ?_, ?_, _, rfl, rfl⟩
  · simp [cases, first]
  · simp [cases, first]
  · simp [config, cases]

end FomegaLab
