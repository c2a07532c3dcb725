-- The binders that naming makes. Read from the outside in and from left to right, they carry
-- the uniques that the conversion started with, each the next one, and each text tells how
-- many binders of the sort are around. So no binder hides one around it, by name or by text,
-- and every name that is used has its binder. None of this needs a kind or a type: it holds
-- whenever the conversion returns.
import FomegaLab.Named.Free
import FomegaLab.Proofs.Conversion.Instantiation
import FomegaLab.Proofs.Conversion.Kinding
import FomegaLab.Proofs.Text.Words

namespace FomegaLab

/-! ## Binders of named syntax -/

/-- A binder with the number of binders of its sort around it. -/
inductive Binder where
  | type (name : TyName) (depth : Nat)
  | term (name : Name) (depth : Nat)

namespace Binder

def unique : Binder → Int
  | type a _ => a.unique
  | term x _ => x.unique

def text : Binder → String
  | type a _ => a.text
  | term x _ => x.text

/-- The text at the binder's depth in the stream of its sort. -/
def textAtDepth (tyStart start : String) : Binder → String
  | type _ depth => tyStart ++ toString depth
  | term _ depth => start ++ toString depth

end Binder

/-- The binders of a type under `depth` type binders, a binder before those in its body. -/
def Ty.binders (depth : Nat) : Ty → List Binder
  | .var _ => []
  | .arrow argument result => argument.binders depth ++ result.binders depth
  | .all a _ body => .type a depth :: body.binders (depth + 1)
  | .lam a _ body => .type a depth :: body.binders (depth + 1)
  | .app function argument => function.binders depth ++ argument.binders depth
  | .builtin _ => []

/-- The binders of a term and of the types in it, a binder before those in its annotation, and
these before those in its body. -/
def Term.binders (tyDepth depth : Nat) : Term → List Binder
  | .var _ => []
  | .lam x type body =>
    .term x depth :: (type.binders tyDepth ++ body.binders tyDepth (depth + 1))
  | .app function argument => function.binders tyDepth depth ++ argument.binders tyDepth depth
  | .tyLam a _ body => .type a tyDepth :: body.binders (tyDepth + 1) depth
  | .inst term type => term.binders tyDepth depth ++ type.binders tyDepth
  | .const _ => []
  | .error type => type.binders tyDepth

/-- A name that shares neither its text nor its unique with those around it. -/
def Unlike {ν : Type} [NameSort ν] (above : List ν) (a : ν) : Prop :=
  ∀ b ∈ above, NameSort.text b ≠ NameSort.text a ∧ NameSort.unique b ≠ NameSort.unique a

/-- No binder in the type hides one around it. -/
def Ty.Unshadowed (above : List TyName) : Ty → Prop
  | .var _ => True
  | .arrow argument result => argument.Unshadowed above ∧ result.Unshadowed above
  | .all a _ body => Unlike above a ∧ body.Unshadowed (a :: above)
  | .lam a _ body => Unlike above a ∧ body.Unshadowed (a :: above)
  | .app function argument => function.Unshadowed above ∧ argument.Unshadowed above
  | .builtin _ => True

/-- No binder in the term, or in a type in it, hides one of its sort around it. -/
def Term.Unshadowed (tyAbove : List TyName) (above : List Name) : Term → Prop
  | .var _ => True
  | .lam x type body =>
    Unlike above x ∧ type.Unshadowed tyAbove ∧ body.Unshadowed tyAbove (x :: above)
  | .app function argument =>
    function.Unshadowed tyAbove above ∧ argument.Unshadowed tyAbove above
  | .tyLam a _ body => Unlike tyAbove a ∧ body.Unshadowed (a :: tyAbove) above
  | .inst term type => term.Unshadowed tyAbove above ∧ type.Unshadowed tyAbove
  | .const _ => True
  | .error type => type.Unshadowed tyAbove

/-! ## Binders that were drawn one after the other -/

/-- The binders carry the uniques from `n` on, the next one is `m`, and their texts tell how
deep they are. -/
structure Drawn (tyStart start : String) (n : Int) (bs : List Binder) (m : Int) : Prop where
  uniques : bs.map Binder.unique = (List.range bs.length).map fun i : Nat => n + i
  supply : m = n + bs.length
  texts : ∀ b ∈ bs, b.text = b.textAtDepth tyStart start

namespace Drawn

variable {tyStart start : String} {n l m : Int} {b : Binder} {bs cs : List Binder}

theorem nil : Drawn tyStart start n [] n := ⟨rfl, by simp, by simp⟩

theorem cons (hu : b.unique = n) (ht : b.text = b.textAtDepth tyStart start)
    (h : Drawn tyStart start (n + 1) bs m) : Drawn tyStart start n (b :: bs) m := by
  refine ⟨?_, ?_, List.forall_mem_cons.mpr ⟨ht, h.texts⟩⟩
  · rw [List.map_cons, h.uniques, hu, List.length_cons, List.range_succ_eq_map, List.map_cons,
      List.map_map]
    have htail : ∀ i : Nat, n + 1 + i = n + ((i + 1 : Nat) : Int) := by omega
    simp [Function.comp_def, htail]
  · have := h.supply
    simp only [List.length_cons]
    omega

theorem append (hb : Drawn tyStart start n bs l) (hc : Drawn tyStart start l cs m) :
    Drawn tyStart start n (bs ++ cs) m := by
  refine ⟨?_, ?_, List.forall_mem_append.mpr ⟨hb.texts, hc.texts⟩⟩
  · rw [List.map_append, hb.uniques, hc.uniques, List.length_append, List.range_add, hb.supply]
    simp [Function.comp_def, Int.add_assoc]
  · have := hb.supply
    have := hc.supply
    simp only [List.length_append]
    omega

/-- Later binders have larger uniques. -/
theorem sorted (h : Drawn tyStart start n bs m) :
    bs.Pairwise fun b c => b.unique < c.unique := by
  rw [← List.pairwise_map (f := Binder.unique) (R := (· < ·)), h.uniques, List.pairwise_map]
  exact List.pairwise_lt_range.imp fun hij => by omega

end Drawn

/-! ## Binders that are told apart -/

/-- The names around a place that `depth` of the binders drawn for it are around: their texts
come from lower depths, and the binders in the place have larger uniques. -/
def Above {ν : Type} [NameSort ν] (start : String) (depth : Nat) (above : List ν)
    (bs : List Binder) : Prop :=
  ∀ a ∈ above, (∃ i < depth, NameSort.text a = start ++ toString i) ∧
    ∀ b ∈ bs, NameSort.unique a < b.unique

namespace Above

variable {ν : Type} [NameSort ν] {start : String} {depth : Nat} {above : List ν} {a : ν}
  {bs cs : List Binder}

theorem of_subset (h : Above start depth above cs) (hbs : bs ⊆ cs) :
    Above start depth above bs := by
  intro a ha
  obtain ⟨htext, hunique⟩ := h a ha
  exact ⟨htext, fun b hb => hunique b (hbs hb)⟩

theorem push (h : Above start depth above bs) (htext : NameSort.text a = start ++ toString depth)
    (hunique : ∀ b ∈ bs, NameSort.unique a < b.unique) :
    Above start (depth + 1) (a :: above) bs := by
  intro c hc
  rcases List.mem_cons.mp hc with rfl | hc
  · exact ⟨⟨depth, Nat.lt_succ_self depth, htext⟩, hunique⟩
  · obtain ⟨⟨i, hi, hci⟩, hlt⟩ := h c hc
    exact ⟨⟨i, Nat.lt_succ_of_lt hi, hci⟩, hlt⟩

theorem unlike {b : Binder} (h : Above start depth above bs) (hb : b ∈ bs)
    (htext : NameSort.text a = start ++ toString depth) (hunique : NameSort.unique a = b.unique) :
    Unlike above a := by
  intro c hc
  obtain ⟨⟨i, hi, hci⟩, hlt⟩ := h c hc
  constructor
  · intro heq
    rw [hci, htext, String.append_right_inj] at heq
    have := toString_injective heq
    omega
  · have := hlt b hb
    omega

end Above

/-- Where later binders have larger uniques and deeper ones other texts, none hides another. -/
theorem Ty.unshadowed_of_binders {tyStart start : String} {T : Ty} {depth : Nat}
    {above : List TyName} (htexts : ∀ b ∈ T.binders depth, b.text = b.textAtDepth tyStart start)
    (hsorted : (T.binders depth).Pairwise fun b c => b.unique < c.unique)
    (habove : Above tyStart depth above (T.binders depth)) : T.Unshadowed above := by
  induction T generalizing depth above with
  | var | builtin => trivial
  | arrow S T ihS ihT | app S T ihS ihT =>
    obtain ⟨htextsS, htextsT⟩ := List.forall_mem_append.mp htexts
    obtain ⟨hsortedS, hsortedT, _⟩ := List.pairwise_append.mp hsorted
    exact ⟨ihS htextsS hsortedS (habove.of_subset (List.subset_append_left _ _)),
      ihT htextsT hsortedT (habove.of_subset (List.subset_append_right _ _))⟩
  | all a k T ih | lam a k T ih =>
    obtain ⟨htext, htextsT⟩ := List.forall_mem_cons.mp htexts
    obtain ⟨hlt, hsortedT⟩ := List.pairwise_cons.mp hsorted
    exact ⟨habove.unlike List.mem_cons_self htext rfl, ih htextsT hsortedT
      ((habove.of_subset (List.subset_cons_self _ _)).push htext hlt)⟩

theorem Term.unshadowed_of_binders {tyStart start : String} {t : Term} {tyDepth depth : Nat}
    {tyAbove : List TyName} {above : List Name}
    (htexts : ∀ b ∈ t.binders tyDepth depth, b.text = b.textAtDepth tyStart start)
    (hsorted : (t.binders tyDepth depth).Pairwise fun b c => b.unique < c.unique)
    (htyAbove : Above tyStart tyDepth tyAbove (t.binders tyDepth depth))
    (habove : Above start depth above (t.binders tyDepth depth)) :
    t.Unshadowed tyAbove above := by
  induction t generalizing tyDepth depth tyAbove above with
  | var | const => trivial
  | lam x type body ih =>
    obtain ⟨htext, hrest⟩ := List.forall_mem_cons.mp htexts
    obtain ⟨htextsS, htextsT⟩ := List.forall_mem_append.mp hrest
    obtain ⟨hlt, hsorted⟩ := List.pairwise_cons.mp hsorted
    obtain ⟨hsortedS, hsortedT, _⟩ := List.pairwise_append.mp hsorted
    obtain ⟨_, hltT⟩ := List.forall_mem_append.mp hlt
    have hleft : type.binders tyDepth ⊆ (lam x type body).binders tyDepth depth := by
      simp [binders]
    have hright : body.binders tyDepth (depth + 1) ⊆ (lam x type body).binders tyDepth depth := by
      simp [binders]
    exact ⟨habove.unlike List.mem_cons_self htext rfl,
      Ty.unshadowed_of_binders htextsS hsortedS (htyAbove.of_subset hleft),
      ih htextsT hsortedT (htyAbove.of_subset hright) ((habove.of_subset hright).push htext hltT)⟩
  | app f t ihf iht =>
    obtain ⟨htextsF, htextsT⟩ := List.forall_mem_append.mp htexts
    obtain ⟨hsortedF, hsortedT, _⟩ := List.pairwise_append.mp hsorted
    have hleft := List.subset_append_left (f.binders tyDepth depth) (t.binders tyDepth depth)
    have hright := List.subset_append_right (f.binders tyDepth depth) (t.binders tyDepth depth)
    exact ⟨ihf htextsF hsortedF (htyAbove.of_subset hleft) (habove.of_subset hleft),
      iht htextsT hsortedT (htyAbove.of_subset hright) (habove.of_subset hright)⟩
  | tyLam a k body ih =>
    obtain ⟨htext, htextsT⟩ := List.forall_mem_cons.mp htexts
    obtain ⟨hlt, hsortedT⟩ := List.pairwise_cons.mp hsorted
    have hbody := List.subset_cons_self (Binder.type a tyDepth) (body.binders (tyDepth + 1) depth)
    exact ⟨htyAbove.unlike List.mem_cons_self htext rfl, ih htextsT hsortedT
      ((htyAbove.of_subset hbody).push htext hlt) (habove.of_subset hbody)⟩
  | inst t type ih =>
    obtain ⟨htextsT, htextsS⟩ := List.forall_mem_append.mp htexts
    obtain ⟨hsortedT, hsortedS, _⟩ := List.pairwise_append.mp hsorted
    have hleft := List.subset_append_left (t.binders tyDepth depth) (type.binders tyDepth)
    have hright := List.subset_append_right (t.binders tyDepth depth) (type.binders tyDepth)
    exact ⟨ih htextsT hsortedT (htyAbove.of_subset hleft) (habove.of_subset hleft),
      Ty.unshadowed_of_binders htextsS hsortedS (htyAbove.of_subset hright)⟩
  | error type => exact Ty.unshadowed_of_binders htexts hsorted htyAbove

/-! ## What naming draws -/

namespace NameScope

variable {ν : Type} {scope : NameScope ν} {start : String}

/-- The next text of the scope is the one for its size. -/
def Numbered (scope : NameScope ν) (start : String) : Prop := scope.unused = ⟨start, scope.size⟩

theorem Numbered.push [NameSort ν] (h : scope.Numbered start) (n : Int) :
    (scope.push n).Numbered start := by
  unfold Numbered at h ⊢
  simp [NameScope.push, h, NameStream.tail, size]

theorem Numbered.head (h : scope.Numbered start) :
    scope.unused.head = start ++ toString scope.size := by
  unfold Numbered at h
  rw [h]
  rfl

end NameScope

/-- What naming a type gives: its binders are drawn one after the other, and the names that it
uses are in scope. -/
structure TyHygiene (tyStart start : String) (scope : NameScope TyName) (n : Int) (T : Ty)
    (m : Int) : Prop where
  drawn : Drawn tyStart start n (T.binders scope.size) m
  free : ∀ a ∈ T.free, a ∈ scope.names

/-- What naming a term gives, in the same way for both sorts of names. -/
structure TermHygiene (tyStart start : String) (tyScope : NameScope TyName)
    (scope : NameScope Name) (n : Int) (t : Term) (m : Int) : Prop where
  drawn : Drawn tyStart start n (t.binders tyScope.size scope.size) m
  tyFree : ∀ a ∈ t.freeTypes, a ∈ tyScope.names
  free : ∀ x ∈ t.free, x ∈ scope.names

/-- Under a binder, what is free in the body is in scope or the binder's own. -/
theorem mem_of_mem_filter_bne {ν : Type} [DecidableEq ν] {a : ν} {free names : List ν}
    (h : ∀ b ∈ free, b ∈ a :: names) : ∀ b ∈ free.filter (· != a), b ∈ names := by
  intro b hb
  obtain ⟨hfree, hne⟩ := List.mem_filter.mp hb
  exact (List.mem_cons.mp (h b hfree)).resolve_left (by simpa using hne)

variable {tyStart start : String} {tyScope : NameScope TyName} {scope : NameScope Name}

theorem PosTy.hygiene_of_toNamed (start : String) {t : PosTy} (hty : tyScope.Numbered tyStart)
    {kinds : Option (List Kind)} {k : Kind} {n m : Int} {T : Ty}
    (h : (t.toNamed tyScope kinds k).run n = (.ok T, m)) :
    TyHygiene tyStart start tyScope n T m := by
  induction t generalizing tyScope kinds k n m T with
  | var i =>
    simp only [toNamed, Fresh.run_bind_eq_ok, Convert.nameOf_eq_ok, Fresh.run_pure_eq_ok] at h
    obtain ⟨_, _, hcheck, a, _, ⟨⟨_, ha⟩, rfl⟩, rfl, rfl⟩ := h
    cases Convert.eq_of_checkVariable hcheck
    exact ⟨.nil, by simpa [Ty.free] using List.mem_of_getElem? ha⟩
  | builtin b =>
    simp only [toNamed, Fresh.run_bind_eq_ok, Convert.checkStar_eq_ok, Fresh.run_pure_eq_ok] at h
    obtain ⟨_, _, ⟨_, rfl⟩, rfl, rfl⟩ := h
    exact ⟨.nil, by simp [Ty.free]⟩
  | arrow s t ihs iht =>
    simp only [toNamed, Fresh.run_bind_eq_ok, Convert.checkStar_eq_ok, Fresh.run_pure_eq_ok] at h
    obtain ⟨_, _, ⟨_, rfl⟩, S, _, hS, T, _, hT, rfl, rfl⟩ := h
    have hS := ihs hty hS
    have hT := iht hty hT
    exact ⟨hS.drawn.append hT.drawn, List.forall_mem_append.mpr ⟨hS.free, hT.free⟩⟩
  | app f t j ihf iht =>
    simp only [toNamed, Fresh.run_bind_eq_ok, Fresh.run_pure_eq_ok] at h
    obtain ⟨F, _, hF, T, _, hT, rfl, rfl⟩ := h
    have hF := ihf hty hF
    have hT := iht hty hT
    exact ⟨hF.drawn.append hT.drawn, List.forall_mem_append.mpr ⟨hF.free, hT.free⟩⟩
  | all j t ih =>
    simp only [toNamed, Fresh.run_bind_eq_ok, Convert.checkStar_eq_ok, NameScope.run_extend,
      Fresh.run_pure_eq_ok] at h
    obtain ⟨_, _, ⟨_, rfl⟩, ⟨a, inner⟩, _, hinner, T, _, hT, rfl, rfl⟩ := h
    cases hinner
    have hT := ih (hty.push n) hT
    exact ⟨.cons rfl hty.head hT.drawn, mem_of_mem_filter_bne hT.free⟩
  | lam t ih =>
    cases k with
    | star => exact absurd h Fresh.run_throw_ne_ok
    | arrow j k =>
      simp only [toNamed, Fresh.run_bind_eq_ok, NameScope.run_extend, Fresh.run_pure_eq_ok] at h
      obtain ⟨⟨a, inner⟩, _, hinner, T, _, hT, rfl, rfl⟩ := h
      cases hinner
      have hT := ih (hty.push n) hT
      exact ⟨.cons rfl hty.head hT.drawn, mem_of_mem_filter_bne hT.free⟩

theorem Convert.normalForm_eq_ok {fuel : Nat} {τ τ' : PosTy} {n m : Int} :
    (normalForm fuel τ).run n = (.ok τ', m) ↔ τ.normalize fuel = some τ' ∧ n = m := by
  unfold normalForm
  rcases τ.normalize fuel with _ | τ''
  · refine ⟨fun h => absurd h Fresh.run_throw_ne_ok, ?_⟩
    rintro ⟨h, _⟩
    cases h
  · rw [Fresh.run_pure_eq_ok, Option.some.injEq]

theorem PosTerm.hygiene_of_toNamed {fuel : Nat} {t : PosTerm} (hty : tyScope.Numbered tyStart)
    (hs : scope.Numbered start) {kinds : Option (List Kind)} {τ : PosTy} {n m : Int} {t' : Term}
    (h : (t.toNamed fuel tyScope scope kinds τ).run n = (.ok t', m)) :
    TermHygiene tyStart start tyScope scope n t' m := by
  induction t generalizing tyScope scope kinds τ n m t' with
  | var i =>
    unfold toNamed at h
    simp only [Fresh.run_bind_eq_ok, Convert.normalForm_eq_ok, Convert.nameOf_eq_ok,
      Fresh.run_pure_eq_ok] at h
    obtain ⟨_, _, ⟨_, rfl⟩, x, _, ⟨⟨_, hx⟩, rfl⟩, rfl, rfl⟩ := h
    exact ⟨.nil, by simp [Term.freeTypes], by simpa [Term.free] using List.mem_of_getElem? hx⟩
  | lam body ih =>
    unfold toNamed at h
    simp only [Fresh.run_bind_eq_ok, Convert.normalForm_eq_ok] at h
    obtain ⟨τ', _, ⟨_, rfl⟩, h⟩ := h
    cases τ' with
    | arrow s r =>
      simp only [Fresh.run_bind_eq_ok, NameScope.run_extend, Fresh.run_pure_eq_ok] at h
      obtain ⟨⟨x, inner⟩, _, hinner, S, _, hS, body', _, hbody, rfl, rfl⟩ := h
      cases hinner
      have hS := PosTy.hygiene_of_toNamed start hty hS
      have hbody := ih hty (hs.push n) hbody
      exact ⟨.cons rfl hs.head (hS.drawn.append hbody.drawn),
        List.forall_mem_append.mpr ⟨hS.free, hbody.tyFree⟩,
        mem_of_mem_filter_bne hbody.free⟩
    | _ => exact absurd h Fresh.run_throw_ne_ok
  | app f t s ihf iht =>
    unfold toNamed at h
    simp only [Fresh.run_bind_eq_ok, Convert.normalForm_eq_ok,
      Fresh.run_pure_eq_ok] at h
    obtain ⟨τ', _, ⟨_, rfl⟩, f', _, hf, t', _, ht, rfl, rfl⟩ := h
    have hf := ihf hty hs hf
    have ht := iht hty hs ht
    exact ⟨hf.drawn.append ht.drawn, List.forall_mem_append.mpr ⟨hf.tyFree, ht.tyFree⟩,
      List.forall_mem_append.mpr ⟨hf.free, ht.free⟩⟩
  | tyLam body ih =>
    unfold toNamed at h
    simp only [Fresh.run_bind_eq_ok, Convert.normalForm_eq_ok] at h
    obtain ⟨τ', _, ⟨_, rfl⟩, h⟩ := h
    cases τ' with
    | all k b =>
      simp only [Fresh.run_bind_eq_ok, NameScope.run_extend, Fresh.run_pure_eq_ok] at h
      obtain ⟨⟨a, inner⟩, _, hinner, body', _, hbody, rfl, rfl⟩ := h
      cases hinner
      have hbody := ih (hty.push n) hs hbody
      exact ⟨.cons rfl hty.head hbody.drawn, mem_of_mem_filter_bne hbody.tyFree, hbody.free⟩
    | _ => exact absurd h Fresh.run_throw_ne_ok
  | inst t b s k ih =>
    unfold toNamed at h
    simp only [Fresh.run_bind_eq_ok, Convert.normalForm_eq_ok,
      Fresh.run_pure_eq_ok] at h
    obtain ⟨τ', _, ⟨_, rfl⟩, t', _, ht, S, _, hS, rfl, rfl⟩ := h
    have ht := ih hty hs ht
    have hS := PosTy.hygiene_of_toNamed start hty hS
    exact ⟨ht.drawn.append hS.drawn, List.forall_mem_append.mpr ⟨ht.tyFree, hS.free⟩,
      ht.free⟩
  | const l =>
    unfold toNamed at h
    simp only [Fresh.run_bind_eq_ok, Convert.normalForm_eq_ok] at h
    obtain ⟨τ', _, ⟨_, rfl⟩, h⟩ := h
    split_ifs at h
    · obtain ⟨rfl, rfl⟩ := Fresh.run_pure_eq_ok.mp h
      exact ⟨.nil, by simp [Term.freeTypes], by simp [Term.free]⟩
    · exact absurd h Fresh.run_throw_ne_ok
  | error =>
    unfold toNamed at h
    simp only [Fresh.run_bind_eq_ok, Convert.normalForm_eq_ok,
      Fresh.run_pure_eq_ok] at h
    obtain ⟨τ', _, ⟨_, rfl⟩, S, _, hS, rfl, rfl⟩ := h
    have hS := PosTy.hygiene_of_toNamed start hty hS
    exact ⟨hS.drawn, hS.free, by simp [Term.free]⟩

/-- Naming is hygienic. Whenever it returns, the binders of the result carry the uniques from
the supply on, in the order in which they stand, the supply ends right after the last one, and
each text is the text of its sort at the binder's depth. All names that are used are bound, and
no binder hides one of its sort around it. -/
theorem naming_is_hygienic {fuel : Nat} {p q : String} {τ : PosTy} {t : PosTerm} {c m : Int}
    {t' : Term}
    (h : (t.toNamedClosed fuel (.ofStart p) (.ofStart q) τ).run c = (.ok t', m)) :
    (t'.binders 0 0).map Binder.unique =
        ((List.range (t'.binders 0 0).length).map fun i : Nat => c + i) ∧
      m = c + (t'.binders 0 0).length ∧
      (∀ b ∈ t'.binders 0 0, b.text = b.textAtDepth p q) ∧
      t'.free = [] ∧ t'.freeTypes = [] ∧ t'.Unshadowed [] [] := by
  have htyNames : (NameScope.empty (.ofStart p) : NameScope TyName).Numbered p := rfl
  have hnames : (NameScope.empty (.ofStart q) : NameScope Name).Numbered q := rfl
  obtain ⟨hdrawn, htyFree, hfree⟩ := PosTerm.hygiene_of_toNamed htyNames hnames h
  have hunshadowed : t'.Unshadowed [] [] :=
    Term.unshadowed_of_binders hdrawn.texts hdrawn.sorted nofun nofun
  exact ⟨hdrawn.uniques, hdrawn.supply, hdrawn.texts, List.subset_nil.mp hfree,
    List.subset_nil.mp htyFree, hunshadowed⟩

/-- Binders of both sorts that take their texts from one stream, in an annotation and in an
instantiation as well. The two binders beside each other share their text. -/
theorem naming_is_hygienic_in_an_instance :
    let poly : PosTy := .all .star (.arrow (.var 1) (.var 0))
    let τ : PosTy := .all .star (.arrow poly (.all .star (.var 0)))
    let t : PosTerm := .tyLam (.lam (.app
      (.inst (.var 0) (.arrow (.var 1) (.var 0)) (.all .star (.var 0)) .star) .error (.var 0)))
    let a : TyName := ⟨"x0", 5⟩
    let x : Name := ⟨"x0", 6⟩
    let b : TyName := ⟨"x1", 7⟩
    let b' : TyName := ⟨"x1", 8⟩
    let t' : Term := .tyLam a .star (.lam x (.all b .star (.arrow (.var a) (.var b)))
      (.app (.inst (.var x) (.all b' .star (.var b'))) (.error (.var a))))
    (t.toNamedClosed 0 (.ofStart "x") (.ofStart "x") τ).run 5 = (.ok t', 9) ∧
      (t'.binders 0 0).map Binder.unique = [5, 6, 7, 8] ∧
      (t'.binders 0 0).map Binder.text = ["x0", "x0", "x1", "x1"] ∧
      t'.free = [] ∧ t'.freeTypes = [] ∧ t'.Unshadowed [] [] := by
  intro poly τ t a x b b' t'
  have hrun : (t.toNamedClosed 0 (.ofStart "x") (.ofStart "x") τ).run 5 = (.ok t', 9) := by rfl
  obtain ⟨huniques, _, _, hfree, htyFree, hunshadowed⟩ := naming_is_hygienic hrun
  exact ⟨hrun, huniques, rfl, hfree, htyFree, hunshadowed⟩

end FomegaLab
