-- What bounds a search and how it visits values.
import FomegaLab.Word

namespace FomegaLab

/-- The order in which a search visits values. -/
inductive Strategy where
  /-- All values of size one, then all of size two, and so on. -/
  | sized
  /-- The values of one constructor at every size, then those of the next one. -/
  | depthFirst
deriving DecidableEq

namespace Strategy

def all : List Strategy := [sized, depthFirst]

def text : Strategy → String
  | sized => "SIZED"
  | depthFirst => "DEPTH_FIRST"

end Strategy

/-- The largest size that a search visits, its order, and how many examples it
takes at most. -/
structure SearchOptions where
  depth : Nat
  strategy : Strategy
  cap : Option Nat
  cap_pos : ∀ n ∈ cap, 0 < n

/-- Why search options are refused. -/
inductive OptionsFault where
  | negativeDepth (depth : Int)
  | capNotPositive (cap : Int)
deriving DecidableEq

def OptionsFault.message : OptionsFault → String
  | .negativeDepth depth =>
    unlessLong (isLong depth) ("depth must not be negative, got " ++ toString depth)
  | .capNotPositive cap =>
    unlessLong (isLong cap) ("max_examples must be positive, got " ++ toString cap)

namespace SearchOptions

/-- Options from integers. The depth is looked at first. -/
def make (depth : Int) (strategy : Strategy) (cap : Option Int) :
    Except OptionsFault SearchOptions :=
  if depth < 0 then .error (.negativeDepth depth)
  else
    match cap with
    | none => .ok ⟨depth.toNat, strategy, none, by simp⟩
    | some cap =>
      if h : 0 < cap then .ok ⟨depth.toNat, strategy, some cap.toNat, by simpa using h⟩
      else .error (.capNotPositive cap)

/-- Exactly the depths that are not negative and the caps that are positive are fine. -/
theorem make_eq_ok_iff {depth : Int} {strategy : Strategy} {cap : Option Int}
    {options : SearchOptions} :
    make depth strategy cap = .ok options ↔
      0 ≤ depth ∧ (∀ n ∈ cap, 0 < n) ∧ options.depth = depth.toNat ∧
        options.strategy = strategy ∧ options.cap = cap.map Int.toNat := by
  cases cap <;> grind [make, cases SearchOptions]

/-- Options are made of nothing but themselves. -/
theorem make_eq_ok_iff_eq {depth : Int} {strategy : Strategy} {cap : Option Int}
    {options : SearchOptions} :
    make depth strategy cap = .ok options ↔
      (options.depth : Int) = depth ∧ options.strategy = strategy ∧
        options.cap.map Int.ofNat = cap := by
  rw [make_eq_ok_iff]
  constructor
  · rintro ⟨hnonneg, hpos, hdepth, hstrategy, hcap⟩
    refine ⟨?_, hstrategy, ?_⟩
    · rw [hdepth, Int.toNat_of_nonneg hnonneg]
    · rw [hcap]
      cases cap with
      | none => rfl
      | some n => exact congrArg some (Int.toNat_of_nonneg (Int.le_of_lt (hpos n rfl)))
  · rintro ⟨rfl, rfl, rfl⟩
    refine ⟨Int.natCast_nonneg _, ?_, (Int.toNat_natCast _).symm, rfl, ?_⟩
    · intro n hn
      obtain ⟨cap, hcap, rfl⟩ := Option.map_eq_some_iff.mp hn
      exact Int.natCast_pos.mpr (options.cap_pos cap hcap)
    · rw [Option.map_map]
      exact Option.map_id'.symm

theorem make_eq_error_iff {depth : Int} {strategy : Strategy} {cap : Option Int}
    {f : OptionsFault} :
    make depth strategy cap = .error f ↔
      depth < 0 ∧ f = .negativeDepth depth ∨
        0 ≤ depth ∧ ∃ n ∈ cap, n ≤ 0 ∧ f = .capNotPositive n := by
  cases cap <;> grind [make]

/-- The depth of a search if nothing else is said. -/
def defaultDepth : Nat := 11

def default : SearchOptions := ⟨defaultDepth, .sized, none, by simp⟩

/-- Options without a cap. -/
def uncapped (depth : Nat) (strategy : Strategy) : SearchOptions :=
  ⟨depth, strategy, none, by simp⟩

/-- Options with a cap. -/
def capped (depth : Nat) (strategy : Strategy) (cap : Nat) (h : 0 < cap) : SearchOptions :=
  ⟨depth, strategy, some cap, by simpa using h⟩

end SearchOptions

/-! ## Caps that can be counted to -/

/-- Why a search cannot begin: it could not count up to its cap. -/
inductive SearchFault where
  | capNotWord (cap : Nat)
deriving DecidableEq

def SearchFault.message : SearchFault → String
  | .capNotWord _ =>
    "Stop argument for islice() must be None or an integer: 0 <= x <= sys.maxsize."

/-- The cap, if a search can count up to it. -/
def SearchOptions.countedCap (options : SearchOptions) : Except SearchFault (Option Nat) :=
  match options.cap with
  | none => .ok none
  | some cap => if isWord cap then .ok (some cap) else .error (.capNotWord cap)

/-- A cap is refused only if it is no word. -/
theorem SearchOptions.countedCap_eq_ok_iff {options : SearchOptions} {cap : Option Nat} :
    options.countedCap = .ok cap ↔ cap = options.cap ∧ ∀ n ∈ options.cap, n < wordLimit := by
  unfold countedCap
  cases options.cap with
  | none => simp [eq_comm]
  | some n => by_cases h : n < wordLimit <;> simp [isWord_natCast, h, eq_comm]

theorem SearchOptions.countedCap_of_le {options : SearchOptions} {cap : Nat}
    (hcap : options.cap = some cap) (h : wordLimit ≤ cap) :
    options.countedCap = .error (.capNotWord cap) := by
  simp [countedCap, hcap, isWord_natCast, Nat.not_lt_of_le h]

end FomegaLab
