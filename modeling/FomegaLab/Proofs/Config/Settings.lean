-- Reading the settings of a configuration. A setting is what stands under its key, or its
-- default, so what a mapping says can be told setting by setting, and the search options
-- that are read from a mapping are the ones that it describes.
import FomegaLab.Config.Parse
import FomegaLab.Proofs.Runs

namespace FomegaLab

/-! ## Mappings -/

namespace Mapping

variable {m : Mapping} {key : String}

theorem mem_erase {e : Data × Data} : e ∈ m.erase key ↔ e ∈ m ∧ e.1 ≠ .text key := by
  obtain ⟨k, d⟩ := e
  rw [erase, List.mem_filter]
  refine and_congr_right fun _ => ?_
  cases k <;> simp

theorem erase_text_cons (s : String) (d : Data) (m : Mapping) :
    erase ((.text s, d) :: m) key = if s = key then erase m key
      else (.text s, d) :: erase m key := by
  by_cases h : s = key <;> simp [erase, h]

theorem get?_erase (m : Mapping) (key other : String) :
    (m.erase key).get? other = if other = key then none else m.get? other := by
  induction m with
  | nil => simp [erase, get?]
  | cons e m ih =>
    obtain ⟨k, d⟩ := e
    cases k with
    | text s =>
      rw [erase_text_cons]
      by_cases hs : s = key
      · rw [if_pos hs, ih, hs]
        by_cases ho : other = key
        · rw [if_pos ho, if_pos ho]
        · rw [if_neg ho, if_neg ho, get?, if_neg (Ne.symm ho)]
      · rw [if_neg hs, get?, get?, ih]
        by_cases ho : s = other
        · rw [if_pos ho, if_pos ho, if_neg (ho ▸ hs)]
        · rw [if_neg ho, if_neg ho]
    | _ => exact ih

/-- All keys are among the names. -/
def KeysIn (m : Mapping) (names : List String) : Prop :=
  ∀ e ∈ m, ∃ s ∈ names, e.1 = .text s

theorem keysIn_erase_iff {names : List String} :
    (m.erase key).KeysIn names ↔ m.KeysIn (key :: names) := by
  constructor
  · intro h e he
    by_cases hkey : e.1 = .text key
    · exact ⟨key, List.mem_cons_self, hkey⟩
    · obtain ⟨s, hs, hes⟩ := h e (mem_erase.mpr ⟨he, hkey⟩)
      exact ⟨s, List.mem_cons_of_mem key hs, hes⟩
  · intro h e he
    obtain ⟨he, hkey⟩ := mem_erase.mp he
    obtain ⟨s, hs, hes⟩ := h e he
    cases hs with
    | head => exact absurd hes hkey
    | tail _ hs => exact ⟨s, hs, hes⟩

/-! ## Settings -/

section Setting

variable {α : Type} {means : Data → α → Prop} {default a : α}

/-- The setting says `a`: the value under the key means it, or there is no value and it is
the default. -/
def Gives (m : Mapping) (key : String) (means : Data → α → Prop) (default a : α) : Prop :=
  match m.get? key with
  | some d => means d a
  | none => a = default

/-- A setting says something of a sort that the default is of, unless it has a value that
means nothing of this sort. -/
theorem exists_gives_and_iff {P : α → Prop} (hdefault : P default) :
    (∃ a, m.Gives key means default a ∧ P a) ↔ ∀ d ∈ m.get? key, ∃ a, means d a ∧ P a := by
  unfold Gives
  cases m.get? key <;> simp [hdefault]

theorem exists_gives_iff :
    (∃ a, m.Gives key means default a) ↔ ∀ d ∈ m.get? key, ∃ a, means d a := by
  unfold Gives
  cases m.get? key <;> simp

theorem gives_erase_iff {other : String} (h : other ≠ key) :
    (m.erase key).Gives other means default a ↔ m.Gives other means default a := by
  rw [Gives, get?_erase, if_neg h, Gives]

theorem gives_erase_self_iff : (m.erase key).Gives key means default a ↔ a = default := by
  rw [Gives, get?_erase, if_pos rfl]

/-- Reads a setting. -/
def readOr (m : Mapping) (key : String) (read : Data → Except ConfigFault α) (default : α) :
    Except ConfigFault α :=
  match m.get? key with
  | some d => read d
  | none => .ok default

theorem readOr_eq_ok_iff {read : Data → Except ConfigFault α}
    (h : ∀ d a, read d = .ok a ↔ means d a) :
    m.readOr key read default = .ok a ↔ m.Gives key means default a := by
  unfold readOr Gives
  cases m.get? key with
  | none => rw [Except.ok.injEq, eq_comm]
  | some d => exact h d a

theorem readOr_ne_error {read : Data → Except ConfigFault α} {f : ConfigFault}
    (h : ∀ d, read d ≠ .error f) : m.readOr key read default ≠ .error f := by
  unfold readOr
  cases m.get? key with
  | none => nofun
  | some d => exact h d

end Setting

end Mapping

/-! ## What values mean -/

namespace Data

/-- The value is a text that names the choice, in any case and with hyphens for
underscores. -/
def Names {α : Type} (name : α → String) (d : Data) (a : α) : Prop :=
  ∃ s, d = .text s ∧ choiceName s = name a

/-- The value is an integer. Truth values are none. -/
def IsInteger (d : Data) (n : Int) : Prop := d = .int n

/-- The value says how many examples there may be, or null for no cap. -/
inductive IsCap : Data → Option Int → Prop
  | none : IsCap .null none
  | some (n : Int) : IsCap (.int n) (some n)

/-- The value is a mapping of texts to integers, or null for the empty one. -/
inductive AreDepths : Data → List (String × Int) → Prop
  | null : AreDepths .null []
  | map (depths : List (String × Int)) :
      AreDepths (.map (depths.map fun o => (.text o.1, .int o.2))) depths

theorem toInteger_eq_ok_iff {setting : String} {d : Data} {n : Int} :
    d.toInteger setting = .ok n ↔ d.IsInteger n := by
  cases d <;> simp [toInteger, IsInteger]

/-- All choices can be read, and each by its own name. -/
theorem toChoice_eq_ok_iff {α : Type} {all : List α} {name : α → String} {setting : String}
    (hall : ∀ a, a ∈ all) (hinj : Function.Injective name) {d : Data} {a : α} :
    d.toChoice all name setting = .ok a ↔ d.Names name a := by
  cases d with
  | text s =>
    have hnames : (text s).Names name a ↔ choiceName s = name a := by simp [Names]
    rw [hnames]
    cases h : all.find? fun a => name a == choiceName s with
    | none =>
      simp only [toChoice, h, reduceCtorEq, false_iff]
      exact fun ha => List.find?_eq_none.mp h a (hall a) (beq_iff_eq.mpr ha.symm)
    | some b =>
      have hb := List.find?_some h
      simp only [toChoice, h, Except.ok.injEq]
      rw [← beq_iff_eq.mp hb, hinj.eq_iff]
  | _ => simp [toChoice, Names]

theorem toMode_eq_ok_iff {d : Data} {mode : RunMode} :
    d.toChoice RunMode.all RunMode.text "mode" = .ok mode ↔ d.Names RunMode.text mode :=
  toChoice_eq_ok_iff (fun mode => by cases mode <;> decide)
    (fun a b => by cases a <;> cases b <;> decide)

theorem toStrategy_eq_ok_iff {d : Data} {strategy : Strategy} :
    d.toChoice Strategy.all Strategy.text "strategy" = .ok strategy ↔
      d.Names Strategy.text strategy :=
  toChoice_eq_ok_iff (fun strategy => by cases strategy <;> decide)
    (fun a b => by cases a <;> cases b <;> decide)

end Data

/-! ## Search options -/

theorem Mapping.keysIn_iff {m : Mapping} {names : List String} :
    m.KeysIn names ↔ ((m.map (·.1)).filter fun k => !k.isName names) = [] := by
  rw [List.filter_eq_nil_iff, List.forall_mem_map]
  refine forall₂_congr fun e _ => ?_
  cases e.1 <;> simp [Data.isName]

theorem checkOptionNames_eq_ok_iff {m : Mapping} {u : Unit} :
    checkOptionNames m = .ok u ↔ m.KeysIn optionNames := by
  rw [Mapping.keysIn_iff]
  unfold checkOptionNames
  cases (m.map (·.1)).filter fun k => !k.isName optionNames with
  | nil => simp
  | cons k unknown => cases h : keyTexts (k :: unknown) <;> simp [h]

theorem keyTexts_eq_none_iff {keys : List Data} :
    keyTexts keys = none ↔ ∃ k ∈ keys, ∀ s, k ≠ .text s := by
  induction keys with
  | nil => simp [keyTexts]
  | cons k keys ih => cases k <;> simp [keyTexts, ih]

/-- A key that is no text is no name, so it is always among the unknown ones. -/
theorem checkOptionNames_eq_unlistable_iff {m : Mapping} :
    (∃ keys, checkOptionNames m = .error (.unlistableOptions keys)) ↔
      ∃ e ∈ m, ∀ s, e.1 ≠ .text s := by
  have hnone : (∃ keys, checkOptionNames m = .error (.unlistableOptions keys)) ↔
      keyTexts ((m.map (·.1)).filter fun k => !k.isName optionNames) = none := by
    unfold checkOptionNames
    cases (m.map (·.1)).filter fun k => !k.isName optionNames with
    | nil => simp [keyTexts]
    | cons k unknown => cases h : keyTexts (k :: unknown) <;> simp [h]
  have hunknown : ∀ k : Data, (∀ s, k ≠ .text s) → (!k.isName optionNames) = true := by
    intro k hk
    cases k with
    | text s => exact absurd rfl (hk s)
    | _ => rfl
  rw [hnone, keyTexts_eq_none_iff]
  constructor
  · rintro ⟨k, hk, hs⟩
    obtain ⟨e, he, rfl⟩ := List.mem_map.mp (List.mem_filter.mp hk).1
    exact ⟨e, he, hs⟩
  · rintro ⟨e, he, hs⟩
    exact ⟨e.1, List.mem_filter.mpr ⟨List.mem_map_of_mem he, hunknown e.1 hs⟩, hs⟩

/-- What a mapping says about a search. -/
structure Mapping.DescribesOptions (m : Mapping) (options : SearchOptions) : Prop where
  depth : m.Gives "depth" Data.IsInteger SearchOptions.defaultDepth options.depth
  strategy : m.Gives "strategy" (Data.Names Strategy.text) .sized options.strategy
  cap : m.Gives "max_examples" Data.IsCap none (options.cap.map Int.ofNat)

namespace SearchOptions

/-- Reads a cap. -/
def readCap : Data → Except ConfigFault (Option Int)
  | .null => .ok none
  | d => (d.toInteger "max_examples").map some

theorem readCap_eq_ok_iff {d : Data} {cap : Option Int} :
    readCap d = .ok cap ↔ d.IsCap cap := by
  constructor
  · intro h
    cases d <;> cases h <;> constructor
  · intro h
    cases h <;> rfl

/-- One setting is read after the other. -/
theorem ofMapping_eq (m : Mapping) : ofMapping m = (do
    checkOptionNames m
    let depth ← m.readOr "depth" (Data.toInteger "depth") defaultDepth
    let strategy ← m.readOr "strategy" (Data.toChoice Strategy.all Strategy.text "strategy") .sized
    let cap ← m.readOr "max_examples" readCap none
    match make depth strategy cap with
    | .ok options => return options
    | .error f => throw (.options f)) := by
  unfold ofMapping Mapping.readOr
  cases m.get? "depth" <;> cases m.get? "strategy" <;>
    rcases m.get? "max_examples" with _ | ⟨_ | _ | _ | _ | _ | _ | _⟩ <;> rfl

theorem ofMapping_eq_ok_iff {m : Mapping} {options : SearchOptions} :
    ofMapping m = .ok options ↔ m.KeysIn optionNames ∧ m.DescribesOptions options := by
  have hmake : ∀ x : Except OptionsFault SearchOptions, (match x with
      | .ok options => pure options
      | .error f => throw (ConfigFault.options f) : Except ConfigFault SearchOptions) =
        .ok options ↔ x = .ok options := by
    intro x
    cases x with
    | ok options' => exact ⟨fun h => by cases h; rfl, fun h => by cases h; rfl⟩
    | error f => exact iff_of_false nofun nofun
  simp only [ofMapping_eq, bind_eq_ok, checkOptionNames_eq_ok_iff, hmake, make_eq_ok_iff_eq,
    Mapping.readOr_eq_ok_iff fun _ _ => Data.toInteger_eq_ok_iff,
    Mapping.readOr_eq_ok_iff fun _ _ => Data.toStrategy_eq_ok_iff,
    Mapping.readOr_eq_ok_iff fun _ _ => readCap_eq_ok_iff]
  constructor
  · rintro ⟨_, hkeys, depth, hdepth, strategy, hstrategy, cap, hcap, rfl, rfl, rfl⟩
    exact ⟨hkeys, hdepth, hstrategy, hcap⟩
  · rintro ⟨hkeys, h⟩
    exact ⟨(), hkeys, _, h.depth, _, h.strategy, _, h.cap, rfl, rfl, rfl⟩

end SearchOptions

end FomegaLab
