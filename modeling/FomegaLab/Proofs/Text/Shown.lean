-- Shown text has one reading. A constructor stands with its parts in parentheses, so the text
-- of a value says where it ends, and the parts are read off one after the other. The induction
-- is on the value, with anything that ends a word after its text.
import FomegaLab.Positional.Subst
import FomegaLab.Proofs.Positional.Membership
import FomegaLab.Proofs.Text.Words
import FomegaLab.Text.Shown

namespace FomegaLab

/-! ## Texts with something after them -/

/-- Whatever follows them, the texts of `a` and of `b` are the same only if `a` and `b` are. -/
def OneText {α : Type} (text : α → String) (a b : α) : Prop :=
  ∀ rest rest' : List Char, Apart rest → Apart rest' →
    (text a).toList ++ rest = (text b).toList ++ rest' → a = b ∧ rest = rest'

namespace OneText

variable {α : Type} {text : α → String} {a b : α}

theorem eq (h : OneText text a b) (htext : text a = text b) : a = b := by
  have hnil : Apart [] := by simp [Apart]
  exact (h [] [] hnil hnil (by rw [htext])).1

/-- Texts that differ in their first character already. -/
theorem of_head (ha : (text a).toList ≠ []) (hb : (text b).toList ≠ [])
    (h : (text a).toList.head? = (text b).toList.head? → a = b) : OneText text a b := by
  intro rest rest' _ _ htext
  have hhead := congrArg List.head? htext
  rw [List.head?_append_of_ne_nil _ ha, List.head?_append_of_ne_nil _ hb] at hhead
  obtain rfl := h hhead
  exact ⟨rfl, List.append_cancel_left htext⟩

end OneText

/-! ## Constructors with their parts -/

/-- The parts of a constructor up to the closing parenthesis, and what follows it. -/
def partsBefore (parts : List String) (rest : List Char) : List Char :=
  (parts.flatMap fun part => ' ' :: part.toList) ++ ')' :: rest

section Parts

variable {parts parts' : List String} {rest rest' : List Char}

theorem apart_partsBefore : Apart (partsBefore parts rest) := by
  cases parts with
  | nil => exact apart_cons.mpr rfl
  | cons part parts => exact apart_cons.mpr rfl

/-- The first part is read off, and the other parts are left. -/
theorem OneText.part {α : Type} {text : α → String} {a b : α} (h : OneText text a b)
    (hparts : partsBefore (text a :: parts) rest = partsBefore (text b :: parts') rest') :
    a = b ∧ partsBefore parts rest = partsBefore parts' rest' := by
  have hcons : ∀ part parts rest,
      partsBefore (part :: parts) rest = ' ' :: (part.toList ++ partsBefore parts rest) := by
    intro part parts rest
    simp [partsBefore]
  rw [hcons, hcons] at hparts
  exact h _ _ apart_partsBefore apart_partsBefore (List.cons.inj hparts).2

/-- After the last part, the parenthesis closes. -/
theorem partsBefore_nil (h : partsBefore [] rest = partsBefore [] rest') : rest = rest' := by
  unfold partsBefore at h
  exact (List.cons.inj h).2

theorem toList_shownParts_append (constructor : String) :
    (shownParts constructor parts).toList ++ rest =
      '(' :: (constructor.toList ++ partsBefore parts rest) := by
  have hparts : [' '].intercalate (constructor.toList :: parts.map String.toList) =
      constructor.toList ++ parts.flatMap fun part => ' ' :: part.toList := by
    induction parts generalizing constructor with
    | nil => simp
    | cons part parts ih => rw [List.map_cons, List.intercalate_cons_cons, ih]; simp
  simp [shownParts, partsBefore, hparts]

/-- The constructor is read off, and its parts are left. -/
theorem shownParts_append_inj {c c' : String} (hc : IsWord c) (hc' : IsWord c')
    (h : (shownParts c parts).toList ++ rest = (shownParts c' parts').toList ++ rest') :
    c = c' ∧ partsBefore parts rest = partsBefore parts' rest' := by
  rw [toList_shownParts_append, toList_shownParts_append] at h
  exact hc.eq_of_append_eq hc' apart_partsBefore apart_partsBefore (List.cons.inj h).2

theorem shownParts_append_ne {c c' : String} (hc : IsWord c) (hc' : IsWord c') (hne : c ≠ c') :
    (shownParts c parts).toList ++ rest ≠ (shownParts c' parts').toList ++ rest' :=
  fun h => hne (shownParts_append_inj hc hc' h).1

/-- No word begins as a constructor with its parts does. -/
theorem IsWord.append_ne_shownParts {w c : String} (hw : IsWord w) :
    w.toList ++ rest ≠ (shownParts c parts).toList ++ rest' := by
  rw [toList_shownParts_append]
  exact hw.append_ne_cons rfl

end Parts

/-! ## Numerals, builtin types and literals -/

theorem toList_toString_negSucc (n : Nat) :
    (toString (Int.negSucc n)).toList = '-' :: (toString (n + 1)).toList := by
  have hneg : toString (Int.negSucc n) = "-" ++ toString (n + 1) := rfl
  rw [hneg, String.toList_append]
  rfl

/-- A sign is no part of a word, so it tells the negative numbers. -/
theorem Int.oneText (i j : Int) : OneText toString i j := by
  intro rest rest' hr hr' h
  cases i with
  | ofNat n =>
    have hn := isWord_toString n
    cases j with
    | ofNat m =>
      obtain ⟨htext, hrest⟩ := hn.eq_of_append_eq (isWord_toString m) hr hr' h
      rw [toString_injective htext]
      exact ⟨rfl, hrest⟩
    | negSucc m =>
      rw [toList_toString_negSucc] at h
      exact absurd h (hn.append_ne_cons rfl)
  | negSucc n =>
    rw [toList_toString_negSucc] at h
    cases j with
    | ofNat m => exact absurd h.symm ((isWord_toString m).append_ne_cons rfl)
    | negSucc m =>
      rw [toList_toString_negSucc] at h
      obtain ⟨htext, hrest⟩ := (isWord_toString (n + 1)).eq_of_append_eq (isWord_toString (m + 1))
        hr hr' (List.cons.inj h).2
      cases toString_injective htext
      exact ⟨rfl, hrest⟩

theorem Builtin.oneText (b b' : Builtin) : OneText Builtin.text b b' := by
  cases b <;> cases b' <;> exact .of_head (by decide) (by decide) (by decide)

theorem Literal.oneText {l l' : Literal} (hl : l ∈ l.builtin.literals)
    (hl' : l' ∈ l'.builtin.literals) : OneText Literal.text l l' := by
  have hall : ∀ b b' : Builtin, ∀ m ∈ b.literals, ∀ m' ∈ b'.literals,
      m.text.toList ≠ [] ∧ m'.text.toList ≠ [] ∧
        (m.text.toList.head? = m'.text.toList.head? → m = m') := by
    intro b b'
    cases b <;> cases b' <;> decide
  obtain ⟨hm, hm', hhead⟩ := hall l.builtin l'.builtin l hl l' hl'
  exact .of_head hm hm' hhead

/-! ## Kinds, types and terms -/

/-- An arrow between kinds is the one form that begins with a part and not with a constructor. -/
theorem Kind.oneText (k k' : Kind) : OneText Kind.shown k k' := by
  have harrow : ∀ (i j : Kind) (s : List Char), (arrow i j).shown.toList ++ s =
      '(' :: (i.shown.toList ++ ' ' :: '-' :: '>' :: ' ' :: (j.shown.toList ++ ')' :: s)) := by
    intro i j s
    simp [shown]
  have hstar : ∀ (i j : Kind) (s s' : List Char),
      star.shown.toList ++ s ≠ (arrow i j).shown.toList ++ s' := by
    intro i j s s'
    rw [harrow]
    exact IsWord.append_ne_cons (by decide) rfl
  induction k generalizing k' with
  | star =>
    intro rest rest' _ _ h
    cases k' with
    | star => exact ⟨rfl, List.append_cancel_left h⟩
    | arrow i j => exact absurd h (hstar i j rest rest')
  | arrow i j ihi ihj =>
    intro rest rest' _ _ h
    cases k' with
    | star => exact absurd h.symm (hstar i j rest' rest)
    | arrow i' j' =>
      rw [harrow, harrow] at h
      obtain ⟨rfl, harrows⟩ := ihi i' _ _ (apart_cons.mpr rfl) (apart_cons.mpr rfl)
        (List.cons.inj h).2
      have hj : j.shown.toList ++ ')' :: rest = j'.shown.toList ++ ')' :: rest' := by
        simpa using harrows
      obtain ⟨rfl, hrest⟩ := ihj j' _ _ (apart_cons.mpr rfl) (apart_cons.mpr rfl) hj
      exact ⟨rfl, (List.cons.inj hrest).2⟩

theorem PosTy.oneText (t t' : PosTy) : OneText PosTy.shown t t' := by
  induction t generalizing t' with
  | var i =>
    intro rest rest' _ _ h
    cases t' with
    | var i' =>
      obtain ⟨-, hi⟩ := shownParts_append_inj (by decide) (by decide) h
      obtain ⟨rfl, hend⟩ := (Int.oneText i i').part hi
      exact ⟨rfl, partsBefore_nil hend⟩
    | _ => exact absurd h (shownParts_append_ne (by decide) (by decide) (by decide))
  | arrow s u ihs ihu =>
    intro rest rest' _ _ h
    cases t' with
    | arrow s' u' =>
      obtain ⟨-, hs⟩ := shownParts_append_inj (by decide) (by decide) h
      obtain ⟨rfl, hu⟩ := (ihs s').part hs
      obtain ⟨rfl, hend⟩ := (ihu u').part hu
      exact ⟨rfl, partsBefore_nil hend⟩
    | _ => exact absurd h (shownParts_append_ne (by decide) (by decide) (by decide))
  | all k body ih =>
    intro rest rest' _ _ h
    cases t' with
    | all k' body' =>
      obtain ⟨-, hk⟩ := shownParts_append_inj (by decide) (by decide) h
      obtain ⟨rfl, hbody⟩ := (k.oneText k').part hk
      obtain ⟨rfl, hend⟩ := (ih body').part hbody
      exact ⟨rfl, partsBefore_nil hend⟩
    | _ => exact absurd h (shownParts_append_ne (by decide) (by decide) (by decide))
  | builtin b =>
    intro rest rest' _ _ h
    cases t' with
    | builtin b' =>
      obtain ⟨-, hb⟩ := shownParts_append_inj (by decide) (by decide) h
      obtain ⟨rfl, hend⟩ := (b.oneText b').part hb
      exact ⟨rfl, partsBefore_nil hend⟩
    | _ => exact absurd h (shownParts_append_ne (by decide) (by decide) (by decide))
  | lam body ih =>
    intro rest rest' _ _ h
    cases t' with
    | lam body' =>
      obtain ⟨-, hbody⟩ := shownParts_append_inj (by decide) (by decide) h
      obtain ⟨rfl, hend⟩ := (ih body').part hbody
      exact ⟨rfl, partsBefore_nil hend⟩
    | _ => exact absurd h (shownParts_append_ne (by decide) (by decide) (by decide))
  | app f u k ihf ihu =>
    intro rest rest' _ _ h
    cases t' with
    | app f' u' k' =>
      obtain ⟨-, hf⟩ := shownParts_append_inj (by decide) (by decide) h
      obtain ⟨rfl, hu⟩ := (ihf f').part hf
      obtain ⟨rfl, hk⟩ := (ihu u').part hu
      obtain ⟨rfl, hend⟩ := (k.oneText k').part hk
      exact ⟨rfl, partsBefore_nil hend⟩
    | _ => exact absurd h (shownParts_append_ne (by decide) (by decide) (by decide))

/-- The text of a literal does not say which builtin type it claims, so the literals have to
be listed. -/
theorem PosTerm.oneText {t t' : PosTerm} (ht : ∀ l ∈ t.literals, l ∈ l.builtin.literals)
    (ht' : ∀ l ∈ t'.literals, l ∈ l.builtin.literals) : OneText PosTerm.shown t t' := by
  have herror : IsWord "ErrorG" := by decide
  induction t generalizing t' with
  | var i =>
    intro rest rest' _ _ h
    cases t' with
    | var i' =>
      obtain ⟨-, hi⟩ := shownParts_append_inj (by decide) (by decide) h
      obtain ⟨rfl, hend⟩ := (Int.oneText i i').part hi
      exact ⟨rfl, partsBefore_nil hend⟩
    | error => exact absurd h.symm herror.append_ne_shownParts
    | _ => exact absurd h (shownParts_append_ne (by decide) (by decide) (by decide))
  | lam body ih =>
    intro rest rest' _ _ h
    cases t' with
    | lam body' =>
      rw [literals] at ht ht'
      obtain ⟨-, hbody⟩ := shownParts_append_inj (by decide) (by decide) h
      obtain ⟨rfl, hend⟩ := (ih ht ht').part hbody
      exact ⟨rfl, partsBefore_nil hend⟩
    | error => exact absurd h.symm herror.append_ne_shownParts
    | _ => exact absurd h (shownParts_append_ne (by decide) (by decide) (by decide))
  | app f u s ihf ihu =>
    intro rest rest' _ _ h
    cases t' with
    | app f' u' s' =>
      rw [literals, List.forall_mem_append] at ht ht'
      obtain ⟨-, hf⟩ := shownParts_append_inj (by decide) (by decide) h
      obtain ⟨rfl, hu⟩ := (ihf ht.1 ht'.1).part hf
      obtain ⟨rfl, hs⟩ := (ihu ht.2 ht'.2).part hu
      obtain ⟨rfl, hend⟩ := (s.oneText s').part hs
      exact ⟨rfl, partsBefore_nil hend⟩
    | error => exact absurd h.symm herror.append_ne_shownParts
    | _ => exact absurd h (shownParts_append_ne (by decide) (by decide) (by decide))
  | tyLam body ih =>
    intro rest rest' _ _ h
    cases t' with
    | tyLam body' =>
      rw [literals] at ht ht'
      obtain ⟨-, hbody⟩ := shownParts_append_inj (by decide) (by decide) h
      obtain ⟨rfl, hend⟩ := (ih ht ht').part hbody
      exact ⟨rfl, partsBefore_nil hend⟩
    | error => exact absurd h.symm herror.append_ne_shownParts
    | _ => exact absurd h (shownParts_append_ne (by decide) (by decide) (by decide))
  | inst u b s k ih =>
    intro rest rest' _ _ h
    cases t' with
    | inst u' b' s' k' =>
      rw [literals] at ht ht'
      obtain ⟨-, hu⟩ := shownParts_append_inj (by decide) (by decide) h
      obtain ⟨rfl, hb⟩ := (ih ht ht').part hu
      obtain ⟨rfl, hs⟩ := (b.oneText b').part hb
      obtain ⟨rfl, hk⟩ := (s.oneText s').part hs
      obtain ⟨rfl, hend⟩ := (k.oneText k').part hk
      exact ⟨rfl, partsBefore_nil hend⟩
    | error => exact absurd h.symm herror.append_ne_shownParts
    | _ => exact absurd h (shownParts_append_ne (by decide) (by decide) (by decide))
  | const l =>
    intro rest rest' _ _ h
    cases t' with
    | const l' =>
      rw [literals, List.forall_mem_singleton] at ht ht'
      obtain ⟨-, hl⟩ := shownParts_append_inj (by decide) (by decide) h
      obtain ⟨rfl, hend⟩ := (Literal.oneText ht ht').part hl
      exact ⟨rfl, partsBefore_nil hend⟩
    | error => exact absurd h.symm herror.append_ne_shownParts
    | _ => exact absurd h (shownParts_append_ne (by decide) (by decide) (by decide))
  | error =>
    intro rest rest' _ _ h
    cases t' with
    | error => exact ⟨rfl, List.append_cancel_left h⟩
    | _ => exact absurd h herror.append_ne_shownParts

/-! ## One value for each text -/

/-- Two kinds, two types, two normal types, or two terms with listed literals that are shown
alike are the same. -/
theorem a_shown_text_has_one_value :
    (∀ k k' : Kind, k.shown = k'.shown → k = k') ∧
    (∀ t t' : PosTy, t.shown = t'.shown → t = t') ∧
    (∀ t t' : PosTy, t.shownNormal = t'.shownNormal → t = t') ∧
    ∀ t t' : PosTerm, (∀ l ∈ t.literals, l ∈ l.builtin.literals) →
      (∀ l ∈ t'.literals, l ∈ l.builtin.literals) → t.shown = t'.shown → t = t' := by
  refine ⟨?_, ?_, ?_, ?_⟩
  · intro k k' h
    exact (k.oneText k').eq h
  · intro t t' h
    exact (t.oneText t').eq h
  · intro t t' h
    unfold PosTy.shownNormal at h
    have hlist := congrArg (fun text => text.toList ++ []) h
    obtain ⟨-, hpart⟩ := shownParts_append_inj (by decide) (by decide) hlist
    exact ((t.oneText t').part hpart).1
  · intro t t' ht ht' h
    exact (PosTerm.oneText ht ht').eq h

/-- A literal that its builtin type does not list is shown like another one. -/
example : (PosTerm.const ⟨.unit, some true⟩).shown = (PosTerm.const ⟨.bool, some true⟩).shown := rfl

/-- A kind that is listed, a type and a normal type that come from an instantiation, and a
term with both in it, each beside the same value written out. -/
theorem a_shown_text_has_one_value_for_an_instance :
    let k : Kind := .arrow (.arrow .star .star) .star
    let k' : Kind := (Kind.ofSize 5).getLast (by decide)
    let s : PosTy := .all k (.arrow (.app (.var 0) (.lam (.var (-1))) (.arrow .star .star))
      (.builtin .unit))
    let s' : PosTy := (PosTy.all k (.arrow (.app (.var 0) (.lam (.var (-1)))
      (.arrow .star .star)) (.var 1))).instantiate (.builtin .unit)
    let call (k : Kind) (s : PosTy) : PosTerm :=
      .app (.inst (.tyLam (.lam (.var 0))) s (.var (-3)) k) (.const ⟨.bool, some true⟩) s
    (k.shown = k'.shown ∧ k = k') ∧
      (s.shown = s'.shown ∧ s = s') ∧ (s.shownNormal = s'.shownNormal ∧ s = s') ∧
      (∀ l ∈ (call k s).literals, l ∈ l.builtin.literals) ∧
      (∀ l ∈ (call k' s').literals, l ∈ l.builtin.literals) ∧
      (call k s).shown = (call k' s').shown ∧ call k s = call k' s' := by
  intro k k' s s' call
  obtain ⟨hkinds, htypes, hnormal, hterms⟩ := a_shown_text_has_one_value
  have hliterals : ∀ l ∈ [(⟨.bool, some true⟩ : Literal)], l ∈ l.builtin.literals := by decide
  exact ⟨⟨rfl, hkinds k k' rfl⟩, ⟨rfl, htypes s s' rfl⟩, ⟨rfl, hnormal s s' rfl⟩, hliterals,
    hliterals, rfl, hterms _ _ hliterals hliterals rfl⟩

end FomegaLab
