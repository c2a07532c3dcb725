-- Which mappings are accepted as suite configurations, and what is made of them. Two things
-- are not as the settings suggest: what counts as nothing is accepted under `depths` whatever
-- it is, and unknown keys that are no texts cannot be listed.
import FomegaLab.Proofs.Config.Settings

namespace FomegaLab

/-! ## Depths of single properties -/

namespace Data

theorem areDepths_map_iff {entries : Mapping} {depths : List (String × Int)} :
    (map entries).AreDepths depths ↔ entries = depths.map fun o => (.text o.1, .int o.2) := by
  constructor
  · rintro ⟨⟩
    rfl
  · rintro rfl
    exact .map depths

theorem AreDepths.eq_nil {d : Data} {depths : List (String × Int)} (h : d.AreDepths depths)
    (hempty : d.isEmpty = true) : depths = [] := by
  cases h with
  | null => rfl
  | map depths => simpa [isEmpty] using hempty

theorem AreDepths.exists_entry {d : Data} {depths : List (String × Int)} (h : d.AreDepths depths)
    {o : String × Int} (ho : o ∈ depths) :
    ∃ entries, d = .map entries ∧ (text o.1, int o.2) ∈ entries := by
  cases h with
  | null => cases ho
  | map depths => exact ⟨_, rfl, List.mem_map_of_mem ho⟩

/-- What is read as depths: depths, and no depths from anything that counts as nothing. -/
def PassesForDepths (d : Data) (depths : List (String × Int)) : Prop :=
  d.AreDepths depths ∨ d.isEmpty = true ∧ depths = []

end Data

/-- Every entry that sets an integer for a text is an override. -/
theorem parseDepths_eq_ok_iff {m : Mapping} {depths : List (String × Int)} :
    parseDepths m = .ok depths ↔ m = depths.map fun o => (.text o.1, .int o.2) := by
  induction m generalizing depths with
  | nil => cases depths <;> simp [parseDepths]
  | cons e m ih =>
    obtain ⟨k, d⟩ := e
    constructor
    · intro h
      cases k with
      | text name =>
        simp only [parseDepths, bind_eq_ok, Data.toInteger_eq_ok_iff, ih] at h
        obtain ⟨depth, rfl, rest, rfl, h⟩ := h
        cases h
        rfl
      | _ => cases h
    · intro h
      cases depths with
      | nil => cases h
      | cons o rest =>
        cases h
        simp only [parseDepths, bind_eq_ok, Data.toInteger_eq_ok_iff, ih]
        exact ⟨o.2, rfl, rest, rfl, rfl⟩

theorem readDepths_eq_ok_iff {m : Mapping} {depths : List (String × Int)} :
    (depthsOf m >>= parseDepths) = .ok depths ↔
      m.Gives "depths" Data.PassesForDepths [] depths := by
  unfold depthsOf Mapping.Gives Data.PassesForDepths
  cases m.get? "depths" with
  | none =>
    change Except.ok [] = .ok depths ↔ _
    rw [Except.ok.injEq, eq_comm]
  | some d =>
    cases hempty : d.isEmpty with
    | true =>
      simp only [hempty, if_true, true_and]
      change Except.ok [] = .ok depths ↔ _
      rw [Except.ok.injEq, eq_comm]
      exact ⟨.inr, fun h => h.elim (·.eq_nil hempty) id⟩
    | false =>
      simp only [hempty, Bool.false_eq_true, if_false, false_and, or_false]
      cases d with
      | map entries =>
        rw [Data.areDepths_map_iff]
        exact parseDepths_eq_ok_iff
      | null => cases hempty
      | _ => exact iff_of_false nofun nofun

/-! ## Suite configurations -/

/-- The settings that a suite configuration has. -/
def SuiteConfig.settings : List String := "mode" :: "depths" :: optionNames

namespace Mapping

variable {m : Mapping} {config : SuiteConfig}

/-- What a mapping says about a suite. -/
structure Describes (m : Mapping) (config : SuiteConfig) : Prop where
  keys : m.KeysIn SuiteConfig.settings
  mode : m.Gives "mode" (Data.Names RunMode.text) .exhaustive config.mode
  depths : m.Gives "depths" Data.AreDepths [] config.depths
  options : m.DescribesOptions config.options

/-- A mapping with no keys but the settings, and with a value of its sort for each setting
that it has. -/
structure IsWellFormed (m : Mapping) : Prop where
  keys : m.KeysIn SuiteConfig.settings
  mode : ∀ d ∈ m.get? "mode", ∃ mode, d.Names RunMode.text mode
  strategy : ∀ d ∈ m.get? "strategy", ∃ strategy, d.Names Strategy.text strategy
  depth : ∀ d ∈ m.get? "depth", ∃ n, d.IsInteger n ∧ 0 ≤ n
  cap : ∀ d ∈ m.get? "max_examples", ∃ cap, d.IsCap cap ∧ ∀ n ∈ cap, 1 ≤ n
  depths : ∀ d ∈ m.get? "depths", ∃ depths, d.AreDepths depths

/-- The value under `depths` counts as nothing, but it is neither null nor a mapping. -/
def LosesDepths (m : Mapping) : Prop :=
  ∃ d ∈ m.get? "depths", d.isEmpty = true ∧ ∀ depths, ¬ d.AreDepths depths

/-- Exactly the mappings that are well-formed describe a suite. -/
theorem isWellFormed_iff : m.IsWellFormed ↔ ∃ config, m.Describes config := by
  have hnone : ∀ n ∈ (none : Option Int), 1 ≤ n := nofun
  constructor
  · intro h
    obtain ⟨mode, hmode⟩ := exists_gives_iff.mpr h.mode
    obtain ⟨depths, hdepths⟩ := exists_gives_iff.mpr h.depths
    obtain ⟨strategy, hstrategy⟩ := exists_gives_iff.mpr h.strategy
    obtain ⟨depth, hdepth, hnonneg⟩ :=
      (exists_gives_and_iff (Int.natCast_nonneg SearchOptions.defaultDepth)).mpr h.depth
    obtain ⟨cap, hcap, hpos⟩ := (exists_gives_and_iff hnone).mpr h.cap
    cases hmake : SearchOptions.make depth strategy cap with
    | ok options =>
      obtain ⟨rfl, rfl, rfl⟩ := SearchOptions.make_eq_ok_iff_eq.mp hmake
      exact ⟨⟨options, mode, depths⟩, h.keys, hmode, hdepths, hdepth, hstrategy, hcap⟩
    | error f =>
      rcases SearchOptions.make_eq_error_iff.mp hmake with ⟨hneg, _⟩ | ⟨_, n, hn, hle, _⟩
      · omega
      · have := hpos n hn
        omega
  · rintro ⟨config, h⟩
    refine ⟨h.keys, exists_gives_iff.mp ⟨_, h.mode⟩, exists_gives_iff.mp ⟨_, h.options.strategy⟩,
      ?_, ?_, exists_gives_iff.mp ⟨_, h.depths⟩⟩
    · exact (exists_gives_and_iff (Int.natCast_nonneg _)).mp
        ⟨_, h.options.depth, Int.natCast_nonneg _⟩
    · refine (exists_gives_and_iff hnone).mp ⟨_, h.options.cap, fun n hn => ?_⟩
      obtain ⟨cap, hcap, rfl⟩ := Option.map_eq_some_iff.mp hn
      exact Int.natCast_pos.mpr (config.options.cap_pos cap hcap)

theorem describesOptions_erase_iff {key : String} (h : key ∉ optionNames)
    {options : SearchOptions} :
    (m.erase key).DescribesOptions options ↔ m.DescribesOptions options := by
  simp only [optionNames, List.mem_cons, List.not_mem_nil, or_false, not_or] at h
  obtain ⟨hdepth, hstrategy, hcap⟩ := h
  constructor
  · rintro ⟨hd, hs, hc⟩
    exact ⟨(gives_erase_iff (Ne.symm hdepth)).mp hd, (gives_erase_iff (Ne.symm hstrategy)).mp hs,
      (gives_erase_iff (Ne.symm hcap)).mp hc⟩
  · rintro ⟨hd, hs, hc⟩
    exact ⟨(gives_erase_iff (Ne.symm hdepth)).mpr hd, (gives_erase_iff (Ne.symm hstrategy)).mpr hs,
      (gives_erase_iff (Ne.symm hcap)).mpr hc⟩

/-- Without the depths, a mapping says the same of all else. -/
theorem describes_erase_depths_iff :
    (m.erase "depths").Describes config ↔
      m.KeysIn SuiteConfig.settings ∧
        m.Gives "mode" (Data.Names RunMode.text) .exhaustive config.mode ∧
        config.depths = [] ∧ m.DescribesOptions config.options := by
  have hkeys : (m.erase "depths").KeysIn SuiteConfig.settings ↔
      m.KeysIn SuiteConfig.settings := by
    rw [keysIn_erase_iff]
    refine forall₂_congr fun e _ => ?_
    simp only [List.mem_cons (b := "depths"), exists_eq_or_imp]
    exact or_iff_right_of_imp fun h => ⟨"depths", by decide, h⟩
  have hoptions : "depths" ∉ optionNames := by decide
  constructor
  · rintro ⟨hk, hmode, hdepths, ho⟩
    exact ⟨hkeys.mp hk, (gives_erase_iff (by decide)).mp hmode,
      gives_erase_self_iff.mp hdepths, (describesOptions_erase_iff hoptions).mp ho⟩
  · rintro ⟨hk, hmode, hdepths, ho⟩
    exact ⟨hkeys.mpr hk, (gives_erase_iff (by decide)).mpr hmode,
      gives_erase_self_iff.mpr hdepths, (describesOptions_erase_iff hoptions).mpr ho⟩

theorem gives_passesForDepths_iff {depths : List (String × Int)} :
    m.Gives "depths" Data.PassesForDepths [] depths ↔
      m.Gives "depths" Data.AreDepths [] depths ∨ m.LosesDepths ∧ depths = [] := by
  unfold LosesDepths Gives Data.PassesForDepths
  cases m.get? "depths" with
  | none => simp
  | some d =>
    simp only [Option.mem_def, Option.some.injEq, exists_eq_left']
    constructor
    · rintro (h | ⟨hempty, rfl⟩)
      · exact .inl h
      · by_cases hare : ∃ depths, d.AreDepths depths
        · obtain ⟨depths, h⟩ := hare
          exact .inl (h.eq_nil hempty ▸ h)
        · exact .inr ⟨⟨hempty, not_exists.mp hare⟩, rfl⟩
    · rintro (h | ⟨⟨hempty, _⟩, rfl⟩)
      · exact .inl h
      · exact .inr ⟨hempty, rfl⟩

end Mapping

namespace SuiteConfig

variable {m : Mapping} {config : SuiteConfig}

theorem ofMapping_eq (m : Mapping) : ofMapping m = (do
    let mode ← m.readOr "mode" (Data.toChoice RunMode.all RunMode.text "mode") .exhaustive
    let depths ← depthsOf m >>= parseDepths
    let options ← SearchOptions.ofMapping ((m.erase "mode").erase "depths")
    return ⟨options, mode, depths⟩) := by
  unfold ofMapping Mapping.readOr
  simp only [bind_assoc]
  cases m.get? "mode" <;> rfl

theorem ofMapping_eq_ok_iff : ofMapping m = .ok config ↔
    m.Describes config ∨ m.LosesDepths ∧ (m.erase "depths").Describes config := by
  have hread : ofMapping m = .ok config ↔
      m.KeysIn settings ∧ m.Gives "mode" (Data.Names RunMode.text) .exhaustive config.mode ∧
        m.Gives "depths" Data.PassesForDepths [] config.depths ∧
        m.DescribesOptions config.options := by
    have hkeys : ((m.erase "mode").erase "depths").KeysIn optionNames ↔ m.KeysIn settings := by
      rw [Mapping.keysIn_erase_iff, Mapping.keysIn_erase_iff, settings]
    have hoptions : ∀ options, ((m.erase "mode").erase "depths").DescribesOptions options ↔
        m.DescribesOptions options := fun options => by
      rw [Mapping.describesOptions_erase_iff (by decide),
        Mapping.describesOptions_erase_iff (by decide)]
    rw [ofMapping_eq]
    simp only [bind_eq_ok (x := Mapping.readOr _ _ _ _), bind_eq_ok (x := _ >>= _),
      bind_eq_ok (x := SearchOptions.ofMapping _), readDepths_eq_ok_iff,
      SearchOptions.ofMapping_eq_ok_iff, hkeys, hoptions,
      Mapping.readOr_eq_ok_iff fun _ _ => Data.toMode_eq_ok_iff]
    constructor
    · rintro ⟨mode, hmode, depths, hdepths, options, ⟨hk, ho⟩, h⟩
      cases h
      exact ⟨hk, hmode, hdepths, ho⟩
    · rintro ⟨hk, hmode, hdepths, ho⟩
      exact ⟨_, hmode, _, hdepths, _, ⟨hk, ho⟩, rfl⟩
  rw [hread, Mapping.gives_passesForDepths_iff, Mapping.describes_erase_depths_iff]
  constructor
  · rintro ⟨hk, hmode, hdepths | ⟨hlost, hdepths⟩, ho⟩
    · exact .inl ⟨hk, hmode, hdepths, ho⟩
    · exact .inr ⟨hlost, hk, hmode, hdepths, ho⟩
  · rintro (⟨hk, hmode, hdepths, ho⟩ | ⟨hlost, hk, hmode, hdepths, ho⟩)
    · exact ⟨hk, hmode, .inl hdepths, ho⟩
    · exact ⟨hk, hmode, .inr ⟨hlost, hdepths⟩, ho⟩

end SuiteConfig

/-! ## Keys that cannot be listed -/

section Unlistable

variable {m : Mapping} {keys : List Data}

theorem Data.toInteger_ne_unlistable {setting : String} (d : Data) :
    d.toInteger setting ≠ .error (.unlistableOptions keys) := by
  cases d <;> nofun

theorem Data.toChoice_ne_unlistable {α : Type} {all : List α} {name : α → String}
    {setting : String} (d : Data) :
    d.toChoice all name setting ≠ .error (.unlistableOptions keys) := by
  cases d with
  | text s => cases h : all.find? fun a => name a == choiceName s <;> simp [toChoice, h]
  | _ => simp [toChoice]

theorem SearchOptions.readCap_ne_unlistable (d : Data) :
    readCap d ≠ .error (.unlistableOptions keys) := by
  cases d <;> nofun

theorem parseDepths_ne_unlistable (m : Mapping) :
    parseDepths m ≠ .error (.unlistableOptions keys) := by
  induction m with
  | nil => nofun
  | cons e m ih =>
    obtain ⟨k, d⟩ := e
    cases k with
    | text name =>
      intro h
      rcases bind_eq_error.mp h with h | ⟨depth, _, h⟩
      · exact d.toInteger_ne_unlistable h
      · rcases bind_eq_error.mp h with h | ⟨depths, _, h⟩
        · exact ih h
        · cases h
    | _ => nofun

theorem depthsOf_ne_unlistable (m : Mapping) :
    depthsOf m ≠ .error (.unlistableOptions keys) := by
  unfold depthsOf
  cases m.get? "depths" with
  | none => nofun
  | some d =>
    cases hempty : d.isEmpty with
    | true => simp [hempty]
    | false => cases d <;> simp [hempty]

/-- The keys are looked at first, and nothing after that is listed. -/
theorem SearchOptions.ofMapping_eq_unlistable_iff :
    ofMapping m = .error (.unlistableOptions keys) ↔
      checkOptionNames m = .error (.unlistableOptions keys) := by
  rw [ofMapping_eq]
  constructor
  · intro h
    rcases bind_eq_error.mp h with h | ⟨_, _, h⟩
    · exact h
    rcases bind_eq_error.mp h with h | ⟨depth, _, h⟩
    · exact absurd h (Mapping.readOr_ne_error Data.toInteger_ne_unlistable)
    rcases bind_eq_error.mp h with h | ⟨strategy, _, h⟩
    · exact absurd h (Mapping.readOr_ne_error Data.toChoice_ne_unlistable)
    rcases bind_eq_error.mp h with h | ⟨cap, _, h⟩
    · exact absurd h (Mapping.readOr_ne_error readCap_ne_unlistable)
    split at h <;> cases h
  · intro h
    exact bind_eq_error.mpr (.inl h)

/-- A mapping with a key that is no text meets keys that cannot be listed, unless the mode or
the depths are refused before. -/
theorem SuiteConfig.ofMapping_eq_unlistable_iff :
    (∃ keys, ofMapping m = .error (.unlistableOptions keys)) ↔
      (∀ d ∈ m.get? "mode", ∃ mode, d.Names RunMode.text mode) ∧
        (∀ d ∈ m.get? "depths", ∃ depths, d.PassesForDepths depths) ∧
        ∃ e ∈ m, ∀ s, e.1 ≠ .text s := by
  have hkeys : (∃ e ∈ (m.erase "mode").erase "depths", ∀ s, e.1 ≠ .text s) ↔
      ∃ e ∈ m, ∀ s, e.1 ≠ .text s := by
    simp only [Mapping.mem_erase]
    constructor
    · rintro ⟨e, ⟨⟨he, _⟩, _⟩, hs⟩
      exact ⟨e, he, hs⟩
    · rintro ⟨e, he, hs⟩
      exact ⟨e, ⟨⟨he, hs _⟩, hs _⟩, hs⟩
  have hmode : (∃ mode, m.readOr "mode" (Data.toChoice RunMode.all RunMode.text "mode")
      .exhaustive = .ok mode) ↔ ∀ d ∈ m.get? "mode", ∃ mode, d.Names RunMode.text mode := by
    simp only [Mapping.readOr_eq_ok_iff fun _ _ => Data.toMode_eq_ok_iff]
    exact Mapping.exists_gives_iff
  have hdepths : (∃ depths, (depthsOf m >>= parseDepths) = .ok depths) ↔
      ∀ d ∈ m.get? "depths", ∃ depths, d.PassesForDepths depths := by
    simp only [readDepths_eq_ok_iff]
    exact Mapping.exists_gives_iff
  rw [← hmode, ← hdepths, ← hkeys, ← checkOptionNames_eq_unlistable_iff]
  simp only [ofMapping_eq]
  constructor
  · rintro ⟨keys, h⟩
    rcases bind_eq_error.mp h with h | ⟨mode, hmode, h⟩
    · exact absurd h (Mapping.readOr_ne_error Data.toChoice_ne_unlistable)
    rcases bind_eq_error.mp h with h | ⟨depths, hdepths, h⟩
    · rcases bind_eq_error.mp h with h | ⟨entries, _, h⟩
      · exact absurd h (depthsOf_ne_unlistable m)
      · exact absurd h (parseDepths_ne_unlistable entries)
    rcases bind_eq_error.mp h with h | ⟨options, _, h⟩
    · exact ⟨⟨mode, hmode⟩, ⟨depths, hdepths⟩, keys,
        SearchOptions.ofMapping_eq_unlistable_iff.mp h⟩
    · cases h
  · rintro ⟨⟨mode, hmode⟩, ⟨depths, hdepths⟩, keys, h⟩
    have hoptions := SearchOptions.ofMapping_eq_unlistable_iff.mpr h
    exact ⟨keys, bind_eq_error.mpr (.inr ⟨mode, hmode,
      bind_eq_error.mpr (.inr ⟨depths, hdepths, bind_eq_error.mpr (.inl hoptions)⟩)⟩)⟩

end Unlistable

/-- A mapping is accepted if it is well-formed. Apart from that, it is accepted if it is
well-formed without `depths` and holds under `depths` what counts as nothing, and then it says
what the rest of it says. What is accepted says the same of every setting as the mapping does,
and all that is refused is refused for a reason that can be told, but for keys that are no
texts: they end the listing of the unknown keys. -/
theorem accepted_mappings_are_well_formed_or_lose_their_depths (m : Mapping) :
    ((∃ config, SuiteConfig.ofMapping m = .ok config) ↔
      m.IsWellFormed ∨ m.LosesDepths ∧ (m.erase "depths").IsWellFormed) ∧
    (∀ config, SuiteConfig.ofMapping m = .ok config ↔
      m.Describes config ∨ m.LosesDepths ∧ (m.erase "depths").Describes config) ∧
    ((∃ keys, SuiteConfig.ofMapping m = .error (.unlistableOptions keys)) ↔
      (∀ d ∈ m.get? "mode", ∃ mode, d.Names RunMode.text mode) ∧
        (∀ d ∈ m.get? "depths", ∃ depths, d.PassesForDepths depths) ∧
        ∃ e ∈ m, ∀ s, e.1 ≠ .text s) := by
  refine ⟨?_, fun config => SuiteConfig.ofMapping_eq_ok_iff,
    SuiteConfig.ofMapping_eq_unlistable_iff⟩
  simp only [SuiteConfig.ofMapping_eq_ok_iff, Mapping.isWellFormed_iff, exists_or, exists_and_left]

/-- A truth value is no mapping. One of them is refused under `depths`, but the other one
counts as nothing and is accepted. A number is an unknown key, but it cannot be listed. -/
theorem a_false_value_passes_for_depths_and_a_number_is_not_listed :
    SuiteConfig.ofMapping [(.text "depths", .bool true)] =
        .error (.depthsNotMapping (.bool true)) ∧
      SuiteConfig.ofMapping [(.text "depths", .bool false)] = .ok .default ∧
      ¬ Mapping.IsWellFormed [(.text "depths", .bool false)] ∧
      (∃ names, SuiteConfig.ofMapping [(.text "size", .int 2)] = .error (.unknownOptions names)) ∧
      SuiteConfig.ofMapping [(.int 1, .int 2)] = .error (.unlistableOptions [.int 1]) := by
  refine ⟨rfl, rfl, fun h => ?_, ⟨_, rfl⟩, rfl⟩
  obtain ⟨depths, hdepths⟩ := h.depths (.bool false) rfl
  cases hdepths

end FomegaLab
