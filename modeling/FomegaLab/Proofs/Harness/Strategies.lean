-- What the options of a search change. The two strategies list the same values in two
-- orders, so an exhaustive run without a cap ends the same under both, up to the order of
-- what it collects and the fault that it ends at. A cap that can be counted to cuts the
-- members off, and no other begins a search.
import FomegaLab.Proofs.Harness.Modes
import Mathlib.Data.Multiset.Bind

namespace FomegaLab

/-! ## One search in two orders -/

namespace Visits

variable {V : Type}

/-- Both strategies visit every constructor at every size, one in each order of the loops. -/
theorem bySize_perm_byConstructor (cs : List (Nat → List V)) (depth : Nat) :
    (bySize cs depth 1).toList.Perm (byConstructor depth cs).toList := by
  rw [toList_bySize, toList_byConstructor, ← Multiset.coe_eq_coe]
  simp only [← Multiset.coe_bind]
  exact Multiset.bind_bind (List.range' 1 depth : Multiset Nat) (cs : Multiset (Nat → List V))

end Visits

namespace Family

variable {V : Type}

theorem members_eq_of_uncapped (family : Family V) (depth : Nat) (strategy : Strategy) :
    family.members (.uncapped depth strategy) =
      .ok ((family.values (.uncapped depth strategy)).filter family.contains) :=
  members_eq family _

/-- A cap that is a word takes the first members, and no other cap begins a search. -/
theorem members_eq_of_capped (family : Family V) {options : SearchOptions} {cap : Nat}
    (hcap : options.cap = some cap) :
    family.members options =
      if cap < wordLimit then
        (family.members (.uncapped options.depth options.strategy)).map (List.take cap)
      else .error (.capNotWord cap) := by
  rw [members_eq_of_uncapped, members_eq]
  by_cases h : cap < wordLimit
  · have hcounted : options.countedCap = .ok (some cap) := by
      rw [SearchOptions.countedCap_eq_ok_iff, hcap]
      exact ⟨rfl, fun n hn => Option.some.inj hn ▸ h⟩
    rw [if_pos h, hcounted]
    rfl
  · rw [if_neg h, SearchOptions.countedCap_of_le hcap (Nat.le_of_not_lt h)]
    rfl

/-- Both strategies have the same members. -/
theorem members_perm (family : Family V) (depth : Nat) :
    ∃ ms ms', family.members (.uncapped depth .sized) = .ok ms ∧
      family.members (.uncapped depth .depthFirst) = .ok ms' ∧ ms.Perm ms' :=
  ⟨_, _, members_eq_of_uncapped family depth .sized,
    members_eq_of_uncapped family depth .depthFirst,
    (Visits.bySize_perm_byConstructor family.constructors depth).filter family.contains⟩

end Family

/-! ## Runs over the same members -/

/-- Two runs end in the same way. What they collected may come in another order, and if they
were aborted, each may have met a fault of its own. -/
inductive SameEnding {V : Type} : (left right : Except (RunError V) Report) → Prop
  | report (r : Report) : SameEnding (.ok r) (.ok r)
  | counterexamples (name : String) (count : Nat) {cs cs' : List Counterexample}
      (h : cs.Perm cs') :
      SameEnding (.error (.counterexamples name count cs))
        (.error (.counterexamples name count cs'))
  | aborted (name : String) (v v' : V) (text text' : String) (f f' : Failure) :
      SameEnding (.error (.aborted name v text f)) (.error (.aborted name v' text' f'))

/-- A fault ended two runs, each at a value of its own. -/
def BothAtFaults {V : Type} [Showable V] (family : Family V) (verdict : V → Verdict)
    (name : String) (left right : Except (RunError V) Report) : Prop :=
  ∃ v v' f f', family.contains v = true ∧ family.contains v' = true ∧
    (verdict v).fault? = some f ∧ (verdict v').fault? = some f' ∧
      left = .error (.ofFault name v f) ∧ right = .error (.ofFault name v' f')

/-- Where every value can be shown, runs that a fault ended were aborted. -/
theorem BothAtFaults.sameEnding {V : Type} [Showable V] {family : Family V}
    {verdict : V → Verdict} {name : String} {left right : Except (RunError V) Report}
    (h : BothAtFaults family verdict name left right)
    (hshown : ∀ v, family.contains v = true → ∃ text, Showable.shown v = .ok text) :
    SameEnding left right := by
  obtain ⟨v, v', f, f', hv, hv', _, _, rfl, rfl⟩ := h
  obtain ⟨text, htext⟩ := hshown v hv
  obtain ⟨text', htext'⟩ := hshown v' hv'
  rw [RunError.ofFault_of_shown htext, RunError.ofFault_of_shown htext']
  exact .aborted name v v' text text' f f'

section Runs

variable {σ V : Type} {family : Family V} {property : V → CheckIn σ Unit}
  {verdict : V → Verdict}

theorem sameEnding_collected {cs cs' : List Counterexample} (h : cs.Perm cs') (name : String)
    (count : Nat) :
    SameEnding (collected name count cs : Except (RunError V) Report)
      (collected name count cs') := by
  cases cs with
  | nil =>
    rw [List.nil_perm.mp h]
    exact .report _
  | cons c cs =>
    have hc : c ∈ c :: cs := List.mem_cons_self
    rw [collected_of_mem hc, collected_of_mem (h.mem_iff.mp hc)]
    exact .counterexamples name count h

/-- Exhaustive runs over the same members in two orders end alike: if one of the members has
a fault, no run gets past all of them. -/
theorem endings_of_perm [Showable V] (h : family.HasVerdicts property verdict) (name : String)
    {options options' : SearchOptions} {ms ms' : List V} (hms : family.members options = .ok ms)
    (hms' : family.members options' = .ok ms') (hperm : ms.Perm ms') (s s' : Session σ V) :
    let left := ((runExhaustive name options family property).run s).1
    let right := ((runExhaustive name options' family property).run s').1
    SameEnding left right ∨ BothAtFaults family verdict name left right := by
  intro left right
  rcases runExhaustive_cases h name options with
    ⟨_, hr, _⟩ | ⟨_, hl, hfault, hend⟩ | ⟨pre, v, post, f, hl, _, hv, hend⟩
  · cases hms.symm.trans hr
  · cases hms.symm.trans hl
    have hfault' : ∀ v ∈ ms', (verdict v).fault? = none :=
      fun v hv => hfault v (hperm.mem_iff.mpr hv)
    have hleft : left = _ := hend s
    have hright : right = _ := endsIn_runExhaustive h hms' hfault' s'
    rw [hleft, hright, hperm.length_eq]
    exact Or.inl (sameEnding_collected (hperm.filterMap _) _ _)
  · cases hms.symm.trans hl
    have hmem : v ∈ pre ++ v :: post := List.mem_append_right pre List.mem_cons_self
    rcases runExhaustive_cases h name options' with
      ⟨_, hr', _⟩ | ⟨_, hl', hfault', _⟩ | ⟨pre', v', post', f', hl', _, hv', hend'⟩
    · cases hms'.symm.trans hr'
    · cases hms'.symm.trans hl'
      cases hv.symm.trans (hfault' v (hperm.mem_iff.mp hmem))
    · cases hms'.symm.trans hl'
      have hmem' : v' ∈ pre' ++ v' :: post' := List.mem_append_right pre' List.mem_cons_self
      exact Or.inr ⟨v, v', f, f', Family.contains_of_mem_members hms hmem,
        Family.contains_of_mem_members hms' hmem', hv, hv', hend s, hend' s'⟩

end Runs

/-- The search of an index answers with the members of its family, whatever the journal. -/
theorem endsIn_searchIndex {σ : Type} (fuel : Nat) (options : SearchOptions) (index : Index) :
    EndsIn (searchIndex fuel options index : ExceptT SearchFault (StateM (Session σ Sample)) _)
      ((index.family fuel).members options) := by
  rw [searchIndex]
  cases (index.family fuel).members options with
  | ok found => exact fun _ => rfl
  | error f => exact .throw f

/-- Without a cap, the strategy changes nothing of how an exhaustive run ends but the order
of its counterexamples and the fault that ends it, if one does. Where every value can be shown,
such a fault aborts the run. A cap takes the first members under either strategy, provided
that it is a word; with any other cap no search begins. -/
theorem strategies_agree_and_word_caps_take_a_prefix {σ V : Type} [Showable V]
    {family : Family V} {property : V → CheckIn σ Unit} {verdict : V → Verdict}
    (h : family.HasVerdicts property verdict) (name : String) (depth : Nat) :
    (∀ s s' : Session σ V,
      let sized := ((runExhaustive name (.uncapped depth .sized) family property).run s).1
      let depthFirst :=
        ((runExhaustive name (.uncapped depth .depthFirst) family property).run s').1
      (SameEnding sized depthFirst ∨ BothAtFaults family verdict name sized depthFirst) ∧
        ((∀ v, family.contains v = true → ∃ text, Showable.shown v = .ok text) →
          SameEnding sized depthFirst)) ∧
    (∀ options : SearchOptions, ∀ cap, options.cap = some cap →
      family.members options =
        if cap < wordLimit then
          (family.members (.uncapped options.depth options.strategy)).map (List.take cap)
        else .error (.capNotWord cap)) ∧
    ∀ (fuel : Nat) (options : SearchOptions) (index : Index),
      EndsIn (searchIndex fuel options index : ExceptT SearchFault (StateM (Session σ Sample)) _)
        ((index.family fuel).members options) := by
  obtain ⟨ms, ms', hms, hms', hperm⟩ := family.members_perm depth
  refine ⟨fun s s' => ?_, fun options cap hcap => family.members_eq_of_capped hcap,
    endsIn_searchIndex⟩
  have hends := endings_of_perm h name hms hms' hperm s s'
  exact ⟨hends, fun hshown => hends.elim id (·.sameEnding hshown)⟩

/-- Of the types up to size five, the function types are counterexamples, and the first seven
types are the same members with a cap. -/
theorem strategies_agree_on_function_types :
    let family := (Index.typesOfKind .star).family 0
    let verdict : Sample → Verdict
      | .type (.arrow a b) => .fails (.counterexample (.kindCheck .star (.arrow a b)))
      | _ => .holds
    let property : Sample → CheckIn Nat Unit := fun v n => ((verdict v).ending, n + 1)
    let sized : SearchOptions := .uncapped 5 .sized
    let depthFirst : SearchOptions := .uncapped 5 .depthFirst
    let capped : SearchOptions := .capped 5 .depthFirst 7 (Nat.zero_lt_succ 6)
    family.HasVerdicts property verdict ∧
      (∀ s s' : Session Nat Sample,
        SameEnding ((runExhaustive "functions" sized family property).run s).1
          ((runExhaustive "functions" depthFirst family property).run s').1) ∧
      family.members capped = (family.members depthFirst).map (List.take 7) := by
  intro family verdict property sized depthFirst capped
  have h : family.HasVerdicts property verdict := fun v _ n => rfl
  obtain ⟨hruns, hcaps, _⟩ := strategies_agree_and_word_caps_take_a_prefix h "functions" 5
  refine ⟨h, fun s s' => (hruns s s').2 fun v _ => ⟨_, rfl⟩, ?_⟩
  have hcapped := hcaps capped 7 rfl
  rwa [if_pos (by decide)] at hcapped

/-- There are two types of size one. A cap that is no word is far above two, but no search
with it begins. On the sizes up to two, a property with a fault at every size aborts the run
under neither strategy, because a size cannot be shown. -/
theorem a_cap_that_is_no_word_begins_no_search :
    let index : Index := .typesOfKind .star
    let uncapped : SearchOptions := .uncapped 1 .sized
    let capped : SearchOptions := .capped 1 .sized wordLimit wordLimit_pos
    let failing : Int → CheckIn Unit Unit :=
      fun _ s => (.error (.failure (.generator (.reported "inconsistent generator"))), s)
    (index.family 0).members uncapped =
        .ok [.type (.builtin .unit), .type (.builtin .bool)] ∧
      (index.family 0).members capped = .error (.capNotWord wordLimit) ∧
      (index.family 0).members capped ≠
        ((index.family 0).members uncapped).map (List.take wordLimit) ∧
      ((runExhaustive "sizes" (.uncapped 2 .sized) .sizes failing).run (.start ())).1 =
        .error (.unshown ⟨"1"⟩) ∧
      ((runExhaustive "sizes" (.uncapped 2 .depthFirst) .sizes failing).run (.start ())).1 =
        .error (.unshown ⟨"1"⟩) := by
  intro index uncapped capped failing
  have hall : (index.family 0).members uncapped =
      .ok [.type (.builtin .unit), .type (.builtin .bool)] := rfl
  have hrefused : (index.family 0).members capped = .error (.capNotWord wordLimit) := by
    have hcap : capped.cap = some wordLimit := rfl
    rw [(index.family 0).members_eq_of_capped hcap, if_neg (Nat.lt_irrefl wordLimit)]
  refine ⟨hall, hrefused, ?_, rfl, rfl⟩
  rw [hrefused, hall]
  nofun

end FomegaLab
