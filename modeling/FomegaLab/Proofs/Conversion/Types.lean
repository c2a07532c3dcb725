-- Naming positional types. A type that has its kind is named without complaint, and
-- what comes out is its meaning with the names of the scope put for the references.
import FomegaLab.Conversion
import FomegaLab.Proofs.Named.Kinding
import FomegaLab.Proofs.Named.Normal
import FomegaLab.Proofs.Positional.Denotation

namespace FomegaLab

open NamelessTy (NormalForm)

/-! ## Names for references -/

namespace Ref

variable {ν : Type}

/-- Puts names for the innermost binders, the first name for the innermost one. -/
def openWith (names : List ν) : Ref ν → Ref ν
  | free a => free a
  | bound i =>
    match names[i]? with
    | some a => free a
    | none => bound (i - names.length)

theorem openWith_nil : openWith ([] : List ν) = id := by
  funext r
  cases r <;> rfl

theorem openWith_bound {names : List ν} {i : Nat} {a : ν} (h : names[i]? = some a) :
    openWith names (bound i) = free a := by
  rw [openWith, h]

theorem openWith_succ (a : ν) (names : List ν) (r : Ref ν) :
    openWith (a :: names) r.succ = openWith names r := by
  cases r with
  | free b => rfl
  | bound i =>
    simp only [succ, openWith, List.getElem?_cons_succ, List.length_cons, Nat.add_sub_add_right]

/-- A new name for a binder can be bound again. -/
theorem bind_openWith [DecidableEq ν] {a : ν} {names : List ν} (ha : a ∉ names) {i : Nat}
    (hi : i < names.length + 1) :
    bind a (openWith (a :: names) (bound i)) = lift (openWith names) (bound i) := by
  cases i with
  | zero => exact bind_self a
  | succ i =>
    have hname : openWith names (bound i) = free names[i] :=
      openWith_bound (List.getElem?_eq_getElem (Nat.lt_of_succ_lt_succ hi))
    have hne : openWith names (bound i) ≠ free a := by
      rw [hname]
      rintro ⟨⟩
      exact ha (List.getElem_mem _)
    change bind a (openWith (a :: names) (bound i).succ) = lift (openWith names) (bound i).succ
    rw [openWith_succ, bind_of_ne hne, lift_succ]

end Ref

/-! ## Runs of the conversion -/

namespace Convert

variable {n : Int}

theorem run_checkStar (t : PosTy) : (checkStar t .star).run n = (.ok (), n) := by
  rw [checkStar, if_pos rfl]
  rfl

theorem run_checkVariable {D : List Kind} {k : Kind} {i : Nat} (h : D[i]? = some k) :
    (checkVariable (some D) i k).run n = (.ok (), n) := by
  obtain ⟨hi, _⟩ := List.getElem?_eq_some_iff.mp h
  have hreferred : referredKind D i = .ok (some k) := by
    rw [referredKind, if_neg (by omega), if_neg (by omega)]
    simp only [Scope.find?, h]
  simp only [checkVariable, hreferred, if_true]
  rfl

theorem run_nameOf {ν : Type} {scope : NameScope ν} {i : Nat} {x : ν}
    (h : scope.names[i]? = some x) : (nameOf scope i).run n = (.ok x, n) := by
  have hname := NameScope.nameOf_eq_ok_iff.mpr ⟨Int.natCast_nonneg i, h⟩
  rw [nameOf, hname]
  rfl

end Convert

/-! ## Scopes of names -/

/-- A new name has the text and the unique that it was made with. -/
class LawfulNameSort (ν : Type) [NameSort ν] : Prop where
  text_make (text : String) (n : Int) : NameSort.text (NameSort.make text n : ν) = text
  unique_make (text : String) (n : Int) : NameSort.unique (NameSort.make text n : ν) = n

instance : LawfulNameSort Name := ⟨fun _ _ => rfl, fun _ _ => rfl⟩
instance : LawfulNameSort TyName := ⟨fun _ _ => rfl, fun _ _ => rfl⟩

namespace NameScope

variable {ν : Type} [NameSort ν] {scope : NameScope ν} {n m : Int} {size : Nat}

/-- The name of the next binder at the unique `n`. -/
def next (scope : NameScope ν) (n : Int) : ν := NameSort.make scope.unused.head n

/-- The scope with this binder. -/
def push (scope : NameScope ν) (n : Int) : NameScope ν :=
  ⟨scope.next n :: scope.names, scope.unused.tail⟩

theorem run_extend {ε : Type} (scope : NameScope ν) (n : Int) :
    (liftM scope.extend : ExceptT ε Fresh (ν × NameScope ν)).run n =
      (.ok (scope.next n, scope.push n), n + 1) := rfl

/-- The scope names as many binders as there are, and new names will be new to it. -/
structure Fits (scope : NameScope ν) (size : Nat) (n : Int) : Prop where
  length : scope.names.length = size
  below : ∀ a ∈ scope.names, NameSort.unique a < n

namespace Fits

theorem mono (h : scope.Fits size n) (hnm : n ≤ m) : scope.Fits size m :=
  ⟨h.length, fun a ha => Int.lt_of_lt_of_le (h.below a ha) hnm⟩

theorem empty (unused : NameStream) (n : Int) : (NameScope.empty unused : NameScope ν).Fits 0 n :=
  ⟨rfl, fun _ ha => by cases ha⟩

variable [LawfulNameSort ν]

theorem push (h : scope.Fits size n) : (scope.push n).Fits (size + 1) (n + 1) := by
  refine ⟨by rw [NameScope.push, List.length_cons, h.length], ?_⟩
  intro a ha
  rcases List.mem_cons.mp ha with rfl | ha
  · rw [next, LawfulNameSort.unique_make]
    omega
  · have := h.below a ha
    omega

/-- The next name is none of those in scope. -/
theorem next_not_mem (h : scope.Fits size n) : scope.next n ∉ scope.names := by
  intro ha
  have hlt := h.below _ ha
  rw [next, LawfulNameSort.unique_make] at hlt
  exact Int.lt_irrefl n hlt

end Fits

end NameScope

/-! ## Types -/

/-- What naming a type gives: the supply grows, the uniques stay below it, and the
names stand where the references were. -/
structure NamedSpec (n : Int) (names : List TyName) (u : NamelessTy) (T : Ty) (m : Int) :
    Prop where
  le : n ≤ m
  below : T.Below m
  nameless_eq : T.nameless = u.rename (.openWith names)

/-- Under a binder, naming uses one more name, and the binder takes it back. -/
theorem Denotes.abstract_openWith {D : List Kind} {j k : Kind} {t : PosTy} {u : NamelessTy}
    (h : Denotes (j :: D) k t u) {names : List TyName} (hlen : names.length = D.length)
    {a : TyName} (ha : a ∉ names) :
    (u.rename (.openWith (a :: names))).abstract a = u.rename (.lift (.openWith names)) := by
  rw [NamelessTy.abstract, NamelessTy.rename_rename]
  refine NamelessTy.rename_congr fun r hr => ?_
  obtain ⟨i, l, rfl, hl⟩ := h.exists_of_occurs hr
  obtain ⟨hi, _⟩ := List.getElem?_eq_some_iff.mp hl
  exact Ref.bind_openWith ha (hlen ▸ hi)

/-- A type that has its kind is named, with its meaning. -/
theorem Denotes.toNamed {D : List Kind} {k : Kind} {t : PosTy} {u : NamelessTy}
    (h : Denotes D k t u) {scope : NameScope TyName} {n : Int} (hscope : scope.Fits D.length n) :
    ∃ T m, (t.toNamed scope (some D) k).run n = (.ok T, m) ∧
      NamedSpec n scope.names u T m := by
  induction h generalizing scope n with
  | @var D k i m hi h =>
    subst hi
    have hm : m < scope.names.length := by
      rw [hscope.length]
      exact (List.getElem?_eq_some_iff.mp h).1
    have hname := List.getElem?_eq_getElem hm
    refine ⟨.var scope.names[m], n, ?_, Int.le_refl n, hscope.below _ (List.getElem_mem hm), ?_⟩
    · apply Fresh.run_bind_ok (Convert.run_checkVariable h)
      apply Fresh.run_bind_ok (Convert.run_nameOf hname)
      rfl
    · rw [Ty.nameless, NamelessTy.rename, Ref.openWith_bound hname]
  | arrow hs ht ihs iht =>
    obtain ⟨s', l, hs', hle₁, hbs, hS⟩ := ihs hscope
    obtain ⟨t', m, ht', hle₂, hbt, hT⟩ := iht (hscope.mono hle₁)
    refine ⟨.arrow s' t', m, ?_, by omega, ⟨hbs.mono hle₂, hbt⟩, ?_⟩
    · apply Fresh.run_bind_ok (Convert.run_checkStar _)
      apply Fresh.run_bind_ok hs'
      apply Fresh.run_bind_ok ht'
      rfl
    · rw [Ty.nameless, NamelessTy.rename, hS, hT]
  | builtin b =>
    refine ⟨.builtin b, n, ?_, Int.le_refl n, trivial, rfl⟩
    apply Fresh.run_bind_ok (Convert.run_checkStar _)
    rfl
  | app hf ht ihf iht =>
    obtain ⟨f', l, hf', hle₁, hbf, hF⟩ := ihf hscope
    obtain ⟨t', m, ht', hle₂, hbt, hT⟩ := iht (hscope.mono hle₁)
    refine ⟨.app f' t', m, ?_, by omega, ⟨hbf.mono hle₂, hbt⟩, ?_⟩
    · apply Fresh.run_bind_ok hf'
      apply Fresh.run_bind_ok ht'
      rfl
    · rw [Ty.nameless, NamelessTy.rename, hF, hT]
  | @all D j t T ht ih =>
    obtain ⟨t', m, ht', hle, hbt, hT⟩ := ih hscope.push
    have ha : (scope.next n).unique < m := Int.lt_of_lt_of_le (Int.lt_succ n) hle
    refine ⟨.all (scope.next n) j t', m, ?_, by omega, ⟨ha, hbt⟩, ?_⟩
    · apply Fresh.run_bind_ok (Convert.run_checkStar _)
      apply Fresh.run_bind_ok (scope.run_extend n)
      apply Fresh.run_bind_ok ht'
      rfl
    · rw [Ty.nameless, NamelessTy.rename, hT, NameScope.push,
        ht.abstract_openWith hscope.length hscope.next_not_mem]
  | @lam D j k t T ht ih =>
    obtain ⟨t', m, ht', hle, hbt, hT⟩ := ih hscope.push
    have ha : (scope.next n).unique < m := Int.lt_of_lt_of_le (Int.lt_succ n) hle
    refine ⟨.lam (scope.next n) j t', m, ?_, by omega, ⟨ha, hbt⟩, ?_⟩
    · apply Fresh.run_bind_ok (scope.run_extend n)
      apply Fresh.run_bind_ok ht'
      rfl
    · rw [Ty.nameless, NamelessTy.rename, hT, NameScope.push,
        ht.abstract_openWith hscope.length hscope.next_not_mem]

theorem Denotes.toNamedClosed {k : Kind} {t : PosTy} {u : NamelessTy} (h : Denotes [] k t u)
    (texts : NameStream) (n : Int) :
    ∃ T m, (t.toNamedClosed texts k).run n = (.ok T, m) ∧ NamedSpec n [] u T m :=
  h.toNamed (.empty texts n)

/-- A named type has its kind where the names have the kinds of their binders. -/
theorem Denotes.kind?_named {D : List Kind} {k : Kind} {t : PosTy} {u : NamelessTy}
    (h : Denotes D k t u) {names : List TyName} {K : TyName → Option Kind}
    (hK : ∀ (i : Nat) j, D[i]? = some j → ∃ a, names[i]? = some a ∧ K a = some j) :
    (u.rename (.openWith names)).kind? (.ofNames K) = some k := by
  rw [NamelessTy.kind?_rename, ← h.kind?_eq]
  refine NamelessTy.kind?_congr fun r hr => ?_
  obtain ⟨i, j, rfl, hj⟩ := h.exists_of_occurs hr
  obtain ⟨a, ha, hKa⟩ := hK i j hj
  rw [Function.comp_apply, Ref.openWith_bound ha, KindScope.ofNames, KindScope.ofList, hKa, hj]

theorem Denotes.kind?_named_closed {k : Kind} {t : PosTy} {u : NamelessTy} {n m : Int} {T : Ty}
    (h : Denotes [] k t u) (hT : NamedSpec n [] u T m) :
    T.nameless.kind? (.ofNames fun _ => none) = some k := by
  rw [hT.nameless_eq]
  exact h.kind?_named fun _ _ hj => by cases hj

end FomegaLab
