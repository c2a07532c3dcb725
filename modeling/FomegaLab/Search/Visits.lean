-- The visits of a search: lists of values, each made only when the search gets
-- to it. A search that stops early never makes the lists behind.
import FomegaLab.Search.Options

namespace FomegaLab

/-- A family of values: one enumeration by size for each constructor, and a test
that says which values belong. -/
structure Family (V : Type) where
  constructors : List (Nat → List V)
  contains : V → Bool

inductive Visits (V : Type) where
  | done
  | visit (values : Unit → List V) (rest : Unit → Visits V)

namespace Visits

variable {V : Type}

/-- Every value, in visiting order. -/
def toList : Visits V → List V
  | done => []
  | visit values rest => values () ++ (rest ()).toList

/-- One visit per constructor at the size `n`, and then `rest`. -/
def atSize (n : Nat) (rest : Unit → Visits V) : List (Nat → List V) → Visits V
  | [] => rest ()
  | c :: cs => visit (fun _ => c n) fun _ => atSize n rest cs

/-- `count` sizes from `n` on, with every constructor at each. -/
def bySize (constructors : List (Nat → List V)) : (count n : Nat) → Visits V
  | 0, _ => done
  | count + 1, n => atSize n (fun _ => bySize constructors count (n + 1)) constructors

/-- One constructor at `count` sizes from `n` on, and then `rest`. -/
def atConstructor (c : Nat → List V) (rest : Unit → Visits V) : (count n : Nat) → Visits V
  | 0, _ => rest ()
  | count + 1, n => visit (fun _ => c n) fun _ => atConstructor c rest count (n + 1)

/-- Every constructor, with `count` sizes from one on at each. -/
def byConstructor (count : Nat) : List (Nat → List V) → Visits V
  | [] => done
  | c :: cs => atConstructor c (fun _ => byConstructor count cs) count 1

/-- The visits of a search through all values up to the depth. -/
def ofOptions (options : SearchOptions) (constructors : List (Nat → List V)) : Visits V :=
  match options.strategy with
  | .sized => bySize constructors options.depth 1
  | .depthFirst => byConstructor options.depth constructors

/-! ## Members -/

/-- Whether a search that took `count` members may take no more. -/
def isFull (cap : Option Nat) (count : Nat) : Bool :=
  match cap with
  | none => false
  | some cap => cap ≤ count

/-- The first `room` values of a list, or all if there is no bound. -/
def firstOf (room : Option Nat) (values : List V) : List V :=
  match room with
  | none => values
  | some room => values.take room

/-- The values that belong, up to the cap, after `count` of them were taken. -/
def membersAfter (cap : Option Nat) (contains : V → Bool) : Visits V → (count : Nat) → List V
  | done, _ => []
  | visit values rest, count =>
    if isFull cap count then []
    else
      let found := firstOf (cap.map (· - count)) ((values ()).filter contains)
      found ++ (rest ()).membersAfter cap contains (count + found.length)

/-- A search without a cap finds what belongs. -/
theorem membersAfter_none (contains : V → Bool) (vs : Visits V) (count : Nat) :
    vs.membersAfter none contains count = vs.toList.filter contains := by
  induction vs generalizing count with
  | done => rfl
  | visit values rest ih => simp [membersAfter, toList, isFull, firstOf, ih]

/-- A cap takes a prefix of what belongs. -/
theorem membersAfter_some (cap : Nat) (contains : V → Bool) (vs : Visits V) (count : Nat) :
    vs.membersAfter (some cap) contains count =
      (vs.toList.filter contains).take (cap - count) := by
  induction vs generalizing count with
  | done => simp [membersAfter, toList]
  | visit values rest ih =>
    by_cases h : cap ≤ count
    · simp [membersAfter, isFull, h, Nat.sub_eq_zero_of_le h]
    · simp only [membersAfter, isFull, h, decide_false, toList, firstOf, Option.map_some, ih,
        List.filter_append, List.take_append, List.length_take]
      simp
      omega

/-! ## Offering members -/

section Offer

variable {m : Type → Type} [Monad m] {β : Type}

/-- Offers the values of one visit that belong, one after the other. -/
def offerList (cap : Option Nat) (contains : V → Bool) (f : V → β → m (ForInStep β)) :
    List V → (count : Nat) → β → m (ForInStep (Nat × β))
  | [], count, b => pure (.yield (count, b))
  | v :: vs, count, b =>
    if isFull cap count then pure (.done (count, b))
    else if contains v then do
      match ← f v b with
      | .done b => pure (.done (count + 1, b))
      | .yield b => offerList cap contains f vs (count + 1) b
    else offerList cap contains f vs count b

/-- Offers the members to `f` until it is done with them or the cap is reached.
Answers how many were offered, with the last state of `f`. -/
def offer (cap : Option Nat) (contains : V → Bool) (f : V → β → m (ForInStep β)) :
    Visits V → (count : Nat) → β → m (Nat × β)
  | done, count, b => pure (count, b)
  | visit values rest, count, b =>
    if isFull cap count then pure (count, b)
    else do
      match ← offerList cap contains f (values ()) count b with
      | .done r => pure r
      | .yield (count, b) => (rest ()).offer cap contains f count b

end Offer

end Visits

/-- Every value up to the depth, whether it belongs or not. -/
def Family.values {V : Type} (family : Family V) (options : SearchOptions) : List V :=
  (Visits.ofOptions options family.constructors).toList

/-! ## Searches -/

/-- What a search for a counterexample comes to, with the number of examples that
were tried. -/
inductive SearchResult (V : Type) where
  | found (value : V) (count : Nat)
  | exhausted (count : Nat)

/-- A search that can begin: its visits, what it looks for, and how many members it
takes at most. -/
structure Search (V : Type) where
  visits : Visits V
  contains : V → Bool
  cap : Option Nat

namespace Search

variable {V : Type}

/-- The values that belong, as many as the cap allows. -/
def members (search : Search V) : List V :=
  search.visits.membersAfter search.cap search.contains 0

variable {m : Type → Type} [Monad m]

/-- Offers the members one by one until `f` is done with them. -/
def offer {β : Type} (search : Search V) (f : V → β → m (ForInStep β)) (b : β) : m (Nat × β) :=
  search.visits.offer search.cap search.contains f 0 b

/-- Looks for the first member on which `holds` answers false. -/
def firstFailure (search : Search V) (holds : V → m Bool) : m (SearchResult V) := do
  let visit (v : V) (_ : Option V) : m (ForInStep (Option V)) := do
    if ← holds v then return .yield none
    else return .done (some v)
  let (count, found) ← search.offer visit none
  match found with
  | some v => return .found v count
  | none => return .exhausted count

end Search

namespace Family

variable {V : Type}

/-- The search that options ask for, if it can begin. -/
def toSearch (family : Family V) (options : SearchOptions) : Except SearchFault (Search V) :=
  options.countedCap.map fun cap =>
    ⟨Visits.ofOptions options family.constructors, family.contains, cap⟩

/-- The values up to the depth that belong, as many as the cap allows. -/
def members (family : Family V) (options : SearchOptions) : Except SearchFault (List V) :=
  (family.toSearch options).map Search.members

/-- Looks for the first member on which `holds` is false. -/
def search (family : Family V) (options : SearchOptions) (holds : V → Bool) :
    Except SearchFault (SearchResult V) :=
  (family.toSearch options).map fun search =>
    Id.run (search.firstFailure fun v => pure (holds v))

end Family

end FomegaLab
