-- The journal of a run: what happened, in order, as data. The wording of an entry,
-- its level and the component that wrote it are functions of the entry.
import FomegaLab.Property.Failure
import FomegaLab.Search.Index
import FomegaLab.Text.Quoted

namespace FomegaLab

/-- A property held on this many examples. -/
structure Report where
  name : String
  examples : Nat
deriving DecidableEq

def Report.text (r : Report) : String :=
  r.name ++ ": " ++ toString r.examples ++ " examples generated"

/-- How important an entry is. -/
inductive Level where
  | debug
  | info
  | warning
  | error
deriving DecidableEq

namespace Level

def rank : Level → Nat
  | debug => 0
  | info => 1
  | warning => 2
  | error => 3

def text : Level → String
  | debug => "DEBUG"
  | info => "INFO"
  | warning => "WARNING"
  | error => "ERROR"

end Level

/-- The part of the library that writes an entry. -/
inductive Component where
  | search
  | harness
  | suite
deriving DecidableEq

namespace Component

def text : Component → String
  | search => "search"
  | harness => "harness"
  | suite => "suite"

end Component

/-- An entry about a value of type `V`. What aborts a run is written with the text that
shows the value. -/
inductive Entry (V : Type) where
  | generated (count : Nat) (index : Index) (options : SearchOptions)
  | running (name : String) (depth : Nat)
  | checking (name : String) (value : V)
  | counterexample (name : String) (c : Counterexample)
  | aborted (name : String) (shown : String) (failure : Failure)
  | finished (report : Report)

/-- Values that messages are about. Every value is spelled out in full detail, but only
positional syntax is shown briefly. -/
class Showable (V : Type) where
  shown : V → Except NotSyntax String
  fields : V → String

instance : Showable Sample := ⟨fun s => .ok s.shown, Sample.fields⟩

namespace Entry

variable {V : Type}

def level : Entry V → Level
  | generated _ _ _ => .debug
  | running _ _ => .info
  | checking _ _ => .debug
  | counterexample _ _ => .warning
  | aborted _ _ _ => .error
  | finished _ => .info

def component : Entry V → Component
  | generated _ _ _ => .search
  | running _ _ => .suite
  | _ => .harness

def message [Showable V] : Entry V → String
  | generated count index options =>
    "Generated " ++ toString count ++ " examples for " ++ index.fields ++ " at " ++ options.fields
  | running name depth => "Running " ++ Text.quoted name ++ " at depth " ++ toString depth
  | checking name value => name ++ ": checking " ++ Showable.fields value
  | counterexample name c => name ++ ": " ++ (Failure.counterexample c).message
  | aborted name shown failure => name ++ " aborted on " ++ shown ++ ": " ++ failure.message
  | finished report => report.text

end Entry

/-- The state of a run: a state of its own, and the journal with its newest entry
first. An error keeps both. -/
structure Session (σ V : Type) where
  state : σ
  journal : List (Entry V)

namespace Session

variable {σ V : Type}

def start (state : σ) : Session σ V := ⟨state, []⟩

def write (e : Entry V) : StateM (Session σ V) Unit :=
  modify fun s => { s with journal := e :: s.journal }

/-- Runs a computation on the state. -/
def within {α : Type} (x : StateM σ α) : StateM (Session σ V) α := fun s =>
  let (a, state) := x s.state
  (a, { s with state })

/-- The entries at a level or above, oldest first. -/
def entries (s : Session σ V) (level : Level) : List (Entry V) :=
  (s.journal.filter fun e => level.rank ≤ e.level.rank).reverse

end Session

end FomegaLab
