-- What inference returns is a type. It is normal and has kind `*` in the scope of the
-- term, so the type of a term that is checked on its own is closed.
import FomegaLab.Proofs.Named.NormalForm
import FomegaLab.Proofs.Typing.Inference

namespace FomegaLab

/-- Types in scope that are normal are what the judgement asks of its scope. -/
theorem TypesInScope.wellKinded {n : Int} {kinds : Bindings TyName Kind}
    {types : Bindings Name Ty} (h : TypesInScope n kinds types)
    (hnormal : ∀ x S, types.lookup x = some S → S.isNormal = true) (t : Term) :
    (namelessTypes types).WellKinded (fun a => kinds.lookup a) t := by
  intro x _ S hS
  obtain ⟨S', hS', rfl⟩ := Option.map_eq_some_iff.mp hS
  exact ⟨Ty.isNormal_iff.mp (hnormal x S' hS'), (h x S' hS').2⟩

namespace Term

/-- Under binders: an inferred type is normal and has kind `*` in the scope, if the types of
the variables are and do. The type may mention the names that the scope has kinds for. -/
theorem inferType_regular {fuel : Nat} {builtins : BuiltinKinds} {kinds : Bindings TyName Kind}
    {types : Bindings Name Ty} {t : Term} {T : Ty} {n m : Int}
    (htypes : TypesInScope n kinds types)
    (hnormal : ∀ x S, types.lookup x = some S → S.isNormal = true) (hb : t.Below n)
    (hapart : t.TyLamsApart (kinds.map Prod.fst))
    (h : (t.inferType fuel builtins kinds types).run n = (.ok T, m)) :
    T.isNormal = true ∧ T.inferKind kinds = .ok .star := by
  obtain ⟨_, _, hT⟩ := inferType_sound htypes hb hapart h
  obtain ⟨hn, hk⟩ := hT.regular (htypes.wellKinded hnormal t)
  exact ⟨Ty.isNormal_iff.mpr hn, Ty.inferKind_eq_ok.mpr hk⟩

/-- Whatever type inference returns for a term on its own has no free names, is normal and
has kind `*`. -/
theorem an_inferred_type_is_closed_normal_and_of_kind_star {t : Term} {T : Ty} {fuel : Nat}
    {n m : Int} (hb : t.Below n) (hapart : t.TyLamsApart [])
    (h : (t.inferType fuel .default [] []).run n = (.ok T, m)) :
    T.free = [] ∧ T.isNormal = true ∧ T.inferKind [] = .ok .star := by
  obtain ⟨hn, hk⟩ := inferType_regular (.empty n) nofun hb hapart h
  exact ⟨Ty.free_eq_nil_of_kind? (Ty.inferKind_eq_ok.mp hk), hn, hk⟩

/-- A polymorphic function of kind `* → *` is instantiated under binders: what it is
instantiated at is contracted, and mentions the name bound outside. -/
theorem an_inferred_type_is_closed_normal_and_of_kind_star_after_instantiation :
    let a : TyName := ⟨"a", 0⟩
    let f : TyName := ⟨"f", 1⟩
    let b : TyName := ⟨"b", 2⟩
    let x : Name := ⟨"x", 3⟩
    let y : Name := ⟨"y", 4⟩
    let t : Term := .tyLam a .star (.lam x (.var a) (.inst
      (.tyLam f (.arrow .star .star) (.lam y (.app (.var f) (.var a)) (.var y)))
      (.lam b .star (.arrow (.var a) (.var b)))))
    let T : Ty := .all a .star (.arrow (.var a)
      (.arrow (.arrow (.var a) (.var a)) (.arrow (.var a) (.var a))))
    t.Below 5 ∧ t.TyLamsApart [] ∧ (t.inferType 1 .default [] []).run 5 = (.ok T, 5) ∧
      T.free = [] ∧ T.isNormal = true ∧ T.inferKind [] = .ok .star := by
  intro a f b x y t T
  have hb : t.Below 5 := by simp [t, a, f, b, x, y, Below, Ty.Below]
  have hapart : t.TyLamsApart [] := by simp [t, a, f, TyLamsApart]
  have h : (t.inferType 1 .default [] []).run 5 = (.ok T, 5) := by rfl
  exact ⟨hb, hapart, h, an_inferred_type_is_closed_normal_and_of_kind_star hb hapart h⟩

/-- Where a type abstraction hides the name of an outer one, a type from outside is returned
under the inner binder, and the kind of that binder need not fit it. -/
example :
    let a : TyName := ⟨"a", 0⟩
    let x : Name := ⟨"x", 1⟩
    let t : Term := .tyLam a .star (.lam x (.var a) (.tyLam a (.arrow .star .star) (.var x)))
    let T : Ty := .all a .star (.arrow (.var a) (.all a (.arrow .star .star) (.var a)))
    (t.inferType 0 .default [] []).run 2 = (.ok T, 2) ∧
      T.inferKind [] = .error (.kindMismatch (.var a) .star (.arrow .star .star)) :=
  ⟨rfl, rfl⟩

end Term

end FomegaLab
