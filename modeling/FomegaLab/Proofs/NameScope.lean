-- A scope of names over its whole life. Its binders are named one after the other while other
-- names are drawn from the same supply. Every draw keeps what is known of the scope, and from
-- this all its answers are read off: a reference has the name of its binder, it is found one
-- step further out when the scope grows, and no other number is answered.
import FomegaLab.Proofs.Conversion.Binders

namespace FomegaLab

/-- A draw from the supply of uniques, as one scope sees it: for the name of its next binder, or
for a name of either sort that stands elsewhere. -/
inductive Draw where
  | binder
  | name (text : String)
  | tyName (text : String)
deriving DecidableEq

namespace NameScope

variable {ν : Type} [NameSort ν] {start : String} {names : List ν} {scope : NameScope ν} {n m : Int}

/-- Makes the draws one after the other. Returns the names of the binders, the first one first,
and the scope with all of them. -/
def draw : List Draw → NameScope ν → Fresh (List ν × NameScope ν)
  | [], scope => pure ([], scope)
  | .binder :: draws, scope => do
    let (a, inner) ← scope.extend
    let (names, last) ← inner.draw draws
    return (a :: names, last)
  | .name text :: draws, scope => do
    let _ ← (fresh text : Fresh Name)
    scope.draw draws
  | .tyName text :: draws, scope => do
    let _ ← (fresh text : Fresh TyName)
    scope.draw draws

/-! ## Growing -/

/-- The scope has grown by these names, the first one first, and the next unique is `n`. -/
structure Grown (start : String) (names : List ν) (scope : NameScope ν) (n : Int) : Prop where
  names_eq : scope.names = names.reverse
  fits : scope.Fits names.length n
  numbered : scope.Numbered start
  texts : names.map NameSort.text =
    (List.range names.length).map fun i : Nat => start ++ toString i
  sorted : names.Pairwise fun a b => NameSort.unique a < NameSort.unique b

namespace Grown

theorem empty (start : String) (n : Int) :
    Grown start [] (.empty (.ofStart start) : NameScope ν) n :=
  ⟨rfl, .empty _ n, rfl, rfl, .nil⟩

theorem mono (h : Grown start names scope n) (hnm : n ≤ m) : Grown start names scope m :=
  { h with fits := h.fits.mono hnm }

theorem size_eq (h : Grown start names scope n) : scope.size = names.length := h.fits.length

variable [LawfulNameSort ν]

theorem push (h : Grown start names scope n) :
    Grown start (names ++ [scope.next n]) (scope.push n) (n + 1) := by
  have hlength : (names ++ [scope.next n]).length = names.length + 1 := by simp
  have htext : NameSort.text (scope.next n) = start ++ toString names.length := by
    rw [next, LawfulNameSort.text_make, h.numbered.head, h.size_eq]
  refine ⟨?_, hlength ▸ h.fits.push, h.numbered.push n, ?_, ?_⟩
  · rw [NameScope.push, h.names_eq, List.reverse_concat]
  · rw [hlength, List.map_append, h.texts, List.range_succ, List.map_append, List.map_singleton,
      List.map_singleton, htext]
  · refine List.pairwise_append.mpr ⟨h.sorted, List.pairwise_singleton _ _, ?_⟩
    intro a ha b hb
    have hunique : NameSort.unique (scope.next n) = n := LawfulNameSort.unique_make _ n
    rw [List.mem_singleton.mp hb, hunique]
    exact h.fits.below a (by rw [h.names_eq]; exact List.mem_reverse.mpr ha)

/-- All draws keep what the scope has grown to, and those for its binders add to it. -/
theorem draw (h : Grown start names scope n) (draws : List Draw) :
    Grown start (names ++ (scope.draw draws n).1.1) (scope.draw draws n).1.2
      (scope.draw draws n).2 := by
  induction draws generalizing names scope n with
  | nil => simpa [NameScope.draw] using h
  | cons d draws ih =>
    cases d with
    | binder =>
      have hrest := ih h.push
      rw [List.append_assoc] at hrest
      exact hrest
    | name text => exact ih (h.mono (Int.le_add_one (Int.le_refl n)))
    | tyName text => exact ih (h.mono (Int.le_add_one (Int.le_refl n)))

end Grown

theorem length_draw (draws : List Draw) (scope : NameScope ν) (n : Int) :
    (scope.draw draws n).1.1.length = draws.count .binder := by
  induction draws generalizing scope n with
  | nil => rfl
  | cons d draws ih =>
    cases d with
    | binder => simpa [draw] using ih _ _
    | name | tyName => simpa [draw] using ih _ _

/-! ## Resolving references -/

/-- What a scope answers whose binders have these names, the first one first. -/
structure Resolves (start : String) (names : List ν) (scope : NameScope ν) : Prop where
  inside : ∀ (i : Nat) (_ : i < names.length), scope.nameOf i = .ok names[names.length - 1 - i] ∧
    NameSort.text names[names.length - 1 - i] = start ++ toString (names.length - 1 - i)
  texts : names.Pairwise fun a b => NameSort.text a ≠ NameSort.text b
  uniques : names.Pairwise fun a b => NameSort.unique a ≠ NameSort.unique b
  extended : ∀ i < names.length, ∀ m : Int,
    (scope.extend m).1.2.nameOf (i + 1) = scope.nameOf i
  outside : ∀ i : Int, i < 0 ∨ names.length ≤ i → scope.nameOf i = .error ⟨i, names.length⟩

/-- A binder moves each outer reference one step out and leaves its name alone. -/
theorem nameOf_push_succ {i : Nat} {a : ν} (h : scope.nameOf i = .ok a) (n : Int) :
    (scope.push n).nameOf (i + 1) = .ok a := by
  rw [nameOf_eq_ok_iff] at h ⊢
  exact ⟨by omega, h.2⟩

namespace Grown

theorem nameOf_eq (h : Grown start names scope n) {i : Nat} (hi : i < names.length) :
    scope.nameOf i = .ok names[names.length - 1 - i] := by
  rw [nameOf_eq_ok_iff, h.names_eq, Int.toNat_natCast, List.getElem?_reverse hi]
  exact ⟨Int.natCast_nonneg i, List.getElem?_eq_getElem _⟩

theorem text_eq (h : Grown start names scope n) {j : Nat} (hj : j < names.length) :
    NameSort.text names[j] = start ++ toString j := by
  have htext := congrArg (·[j]?) h.texts
  simp only [List.getElem?_map, List.getElem?_eq_getElem hj, List.getElem?_range hj,
    Option.map_some, Option.some.injEq] at htext
  exact htext

/-- Texts that tell their places are different ones. -/
theorem pairwise_text_ne (h : Grown start names scope n) :
    names.Pairwise fun a b => NameSort.text a ≠ NameSort.text b := by
  rw [← List.pairwise_map (f := NameSort.text) (R := (· ≠ ·)), h.texts, List.pairwise_map]
  refine List.nodup_range.imp ?_
  intro i j hij heq
  exact hij (toString_injective (String.append_right_inj _ |>.mp heq))

theorem resolves (h : Grown start names scope n) : Resolves start names scope := by
  refine ⟨?_, h.pairwise_text_ne, h.sorted.imp Int.ne_of_lt, ?_, ?_⟩
  · intro i hi
    exact ⟨h.nameOf_eq hi, h.text_eq _⟩
  · intro i hi m
    rw [h.nameOf_eq hi]
    exact nameOf_push_succ (h.nameOf_eq hi) m
  · intro i hi
    rw [← h.size_eq] at hi ⊢
    exact nameOf_of_outside hi

end Grown

end NameScope

open NameScope

/-- A scope gives each reference the name of its binder, whatever else is drawn in between: the
name that was drawn for the binder, with the text of its place, unlike all other names of the
scope. The name stays when the scope grows, and a number that counts no binder has none. -/
theorem references_keep_their_names (start : String) (draws : List Draw) (n : Int) :
    let ((names, scope), _) := (empty (.ofStart start) : NameScope Name).draw draws n
    let ((tyNames, tyScope), _) := (empty (.ofStart start) : NameScope TyName).draw draws n
    names.length = draws.count .binder ∧ Resolves start names scope ∧
      tyNames.length = draws.count .binder ∧ Resolves start tyNames tyScope :=
  ⟨length_draw _ _ _, ((Grown.empty start n).draw draws).resolves,
    length_draw _ _ _, ((Grown.empty start n).draw draws).resolves⟩

/-- A type name is drawn between two binders of terms. -/
example :
    let ((_, scope), _) := (empty (.ofStart "x") : NameScope Name).draw
      [.binder, .tyName "x0", .binder] 7
    scope.nameOf 0 = .ok ⟨"x1", 9⟩ ∧ scope.nameOf 1 = .ok ⟨"x0", 7⟩ ∧
      scope.nameOf 2 = .error ⟨2, 2⟩ ∧ scope.nameOf (-1) = .error ⟨-1, 2⟩ :=
  ⟨by rfl, by rfl, by rfl, by rfl⟩

end FomegaLab
