-- Layouts: the one grammar that the readable texts of kinds, types and terms share. A layout
-- says which parts a text is put together from, and forgets which sort of syntax it shows.
-- A place with juxtaposed parts is read as a spine, and no text that is put together begins
-- like a binder unless it is one.
import FomegaLab.Text.Pretty
import FomegaLab.Proofs.Text.Words

namespace FomegaLab

/-- The binders that show what their name belongs to. -/
inductive BinderForm where
  | all
  | tyLam
  | lam
  | tyAbs
deriving DecidableEq

namespace BinderForm

def lead : BinderForm → String
  | all => "all ("
  | tyLam | lam => "\\("
  | tyAbs => "/\\("

/-- What stands between the name and its ascription. -/
def mark : BinderForm → String
  | lam => " : "
  | all | tyLam | tyAbs => " :: "

/-- What stands between the ascription and the body. -/
def tail : BinderForm → String
  | all => "). "
  | tyLam | lam | tyAbs => ") -> "

end BinderForm

/-- What a text is put together from. The unit is no word, since it has the marks of an empty
pair of parentheses. -/
inductive Layout where
  | word (text : String)
  | unit
  | arrow (left right : Layout)
  | juxtaposed (function argument : Layout)
  | braced (function inner : Layout)
  | binder (form : BinderForm) (name : String) (ascription body : Layout)
  | lam (name : String) (body : Layout)
deriving DecidableEq

namespace Layout

def doc : Layout → Doc
  | word text => .atom text
  | unit => .atom "()"
  | arrow left right => .arrow left.doc right.doc
  | juxtaposed function argument => .juxtaposed function.doc argument.doc
  | braced function inner =>
    ⟨function.doc.placed Doc.juxtaposedLevel ++ " " ++ FomegaLab.braced inner.doc.text,
      Doc.juxtaposedLevel⟩
  | binder form name ascription body =>
    .binder (form.lead ++ name ++ form.mark ++ ascription.doc.text ++ form.tail) body.doc
  | lam name body => .binder ("\\" ++ name ++ " -> ") body.doc

/-- Words and names are words, and no word is the keyword of a binder. -/
def Readable : Layout → Prop
  | word text => IsWord text ∧ text ≠ "all"
  | unit => True
  | arrow left right => left.Readable ∧ right.Readable
  | juxtaposed function argument => function.Readable ∧ argument.Readable
  | braced function inner => function.Readable ∧ inner.Readable
  | binder _ name ascription body => IsWord name ∧ ascription.Readable ∧ body.Readable
  | lam name body => IsWord name ∧ body.Readable

/-! ## Texts by place -/

section Places

variable (l : Layout)

/-- The text in braces, after a binder, and on its own. -/
def whole : List Char := l.doc.text.toList

/-- The text to the right of an arrow. -/
def afterArrow : List Char := (l.doc.placed Doc.arrowLevel).toList

/-- The text of a function, and to the left of an arrow. -/
def asFunction : List Char := (l.doc.placed Doc.juxtaposedLevel).toList

/-- The text of an argument. -/
def asArgument : List Char := (l.doc.placed Doc.atomLevel).toList

/-- The text in parentheses. -/
def enclosed : List Char := '(' :: (l.whole ++ [')'])

theorem toList_placed (required : Nat) :
    (l.doc.placed required).toList = if required ≤ l.doc.level then l.whole else l.enclosed := by
  unfold Doc.placed enclosed whole
  split <;> simp

theorem toList_placed_binderLevel : (l.doc.placed Doc.binderLevel).toList = l.whole := by
  rw [toList_placed]
  cases l <;> rfl

/-- No text holds together more tightly than an arrow and less tightly than a juxtaposition. -/
theorem toList_placed_leftOfArrow :
    (l.doc.placed (Doc.arrowLevel + 1)).toList = l.asFunction := by
  unfold asFunction
  rw [toList_placed, toList_placed]
  cases l <;> rfl

/-! A place takes the form that belongs to it, or the text is that of the next tighter place. -/

theorem whole_cases :
    (∃ form name ascription body, l = binder form name ascription body) ∨
      (∃ name body, l = lam name body) ∨ l.whole = l.afterArrow := by
  unfold afterArrow
  rw [toList_placed]
  cases l with
  | binder form name ascription body => exact .inl ⟨form, name, ascription, body, rfl⟩
  | lam name body => exact .inr (.inl ⟨name, body, rfl⟩)
  | _ => exact .inr (.inr rfl)

/-- What stands after an arrow is an arrow again or stands as a function would. -/
theorem arrow_induction {P : Layout → Prop}
    (arrow : ∀ left right, P right → P (arrow left right))
    (single : ∀ l, l.afterArrow = l.asFunction → P l) : P l := by
  induction l with
  | arrow left right _ ih => exact arrow left right ih
  | _ => exact single _ rfl

/-- A function is juxtaposed with its last argument or stands as an argument would. -/
theorem spine_induction {P : Layout → Prop}
    (juxtaposed : ∀ function argument, P function → P (juxtaposed function argument))
    (braced : ∀ function inner, P function → P (braced function inner))
    (single : ∀ l, l.asFunction = l.asArgument → P l) : P l := by
  induction l with
  | juxtaposed function argument ih _ => exact juxtaposed function argument ih
  | braced function inner ih _ => exact braced function inner ih
  | _ => exact single _ rfl

theorem asArgument_cases :
    (∃ text, l = word text) ∨ l = unit ∨ l.asArgument = l.enclosed := by
  unfold asArgument
  rw [toList_placed]
  cases l with
  | word text => exact .inl ⟨text, rfl⟩
  | unit => exact .inr (.inl rfl)
  | _ => exact .inr (.inr rfl)

end Places

section Texts

variable {form : BinderForm} {name : String} {l m : Layout}

theorem asFunction_juxtaposed :
    (juxtaposed l m).asFunction = l.asFunction ++ ' ' :: m.asArgument := by
  change (l.doc.placed Doc.juxtaposedLevel ++ " " ++ m.doc.placed Doc.atomLevel).toList = _
  simp [asFunction, asArgument]

theorem asFunction_braced :
    (braced l m).asFunction = l.asFunction ++ ' ' :: '\x7b' :: (m.whole ++ ['\x7d']) := by
  change (l.doc.placed Doc.juxtaposedLevel ++ " " ++ FomegaLab.braced m.doc.text).toList = _
  simp [asFunction, whole, FomegaLab.braced]

theorem enclosed_append {rest : List Char} :
    l.enclosed ++ rest = '(' :: (l.whole ++ ')' :: rest) := by
  simp [enclosed]

theorem afterArrow_arrow :
    (arrow l m).afterArrow = l.asFunction ++ ' ' :: '-' :: '>' :: ' ' :: m.afterArrow := by
  change (l.doc.placed (Doc.arrowLevel + 1) ++ " -> " ++ m.doc.placed Doc.arrowLevel).toList = _
  simp [toList_placed_leftOfArrow, afterArrow]

theorem whole_binder :
    (binder form name l m).whole = form.lead.toList ++
      (name.toList ++ (form.mark.toList ++ (l.whole ++ (form.tail.toList ++ m.whole)))) := by
  change (form.lead ++ name ++ form.mark ++ l.doc.text ++ form.tail ++
    m.doc.placed Doc.binderLevel).toList = _
  simp [toList_placed_binderLevel, whole]

theorem whole_lam :
    (lam name l).whole = '\\' :: (name.toList ++ ' ' :: '-' :: '>' :: ' ' :: l.whole) := by
  change ("\\" ++ name ++ " -> " ++ l.doc.placed Doc.binderLevel).toList = _
  simp [toList_placed_binderLevel]

end Texts

/-! ## How texts begin -/

/-- A text that begins with a word that is no keyword of a binder, or with a parenthesis. -/
def Opens (s : List Char) : Prop :=
  (∃ w rest, IsWord w ∧ w ≠ "all" ∧ Apart rest ∧ s = w.toList ++ rest) ∨ ∃ rest, s = '(' :: rest

theorem Opens.exists_cons {s : List Char} (h : Opens s) :
    ∃ c rest, s = c :: rest ∧ (isWordChar c = true ∨ c = '(') := by
  rcases h with ⟨w, rest, hw, -, -, rfl⟩ | ⟨rest, rfl⟩
  · obtain ⟨c, cs, hlist⟩ := List.exists_cons_of_ne_nil hw.1
    exact ⟨c, cs ++ rest, by simp [hlist], .inl (hw.2 c (by simp [hlist]))⟩
  · exact ⟨'(', rest, rfl, .inr rfl⟩

theorem Opens.head {c : Char} {s : List Char} (h : Opens (c :: s)) :
    isWordChar c = true ∨ c = '(' := by
  obtain ⟨d, rest, heq, hd⟩ := h.exists_cons
  rw [(List.cons.inj heq).1]
  exact hd

section Openings

variable {l : Layout} {rest : List Char}

theorem opens_asArgument (hl : l.Readable) (hr : Apart rest) : Opens (l.asArgument ++ rest) := by
  rcases l.asArgument_cases with ⟨w, rfl⟩ | rfl | h
  · exact .inl ⟨w, rest, hl.1, hl.2, hr, rfl⟩
  · exact .inr ⟨_, rfl⟩
  · rw [h]
    exact .inr ⟨_, rfl⟩

theorem opens_asFunction (hl : l.Readable) (hr : Apart rest) : Opens (l.asFunction ++ rest) := by
  induction l using spine_induction generalizing rest with
  | juxtaposed function argument ih =>
    rw [asFunction_juxtaposed, List.append_assoc]
    exact ih hl.1 (apart_cons.mpr rfl)
  | braced function inner ih =>
    rw [asFunction_braced, List.append_assoc]
    exact ih hl.1 (apart_cons.mpr rfl)
  | single l h =>
    rw [h]
    exact opens_asArgument hl hr

theorem opens_afterArrow (hl : l.Readable) (hr : Apart rest) : Opens (l.afterArrow ++ rest) := by
  induction l using arrow_induction with
  | arrow left right _ =>
    rw [afterArrow_arrow, List.append_assoc]
    exact opens_asFunction hl.1 (apart_cons.mpr rfl)
  | single l h =>
    rw [h]
    exact opens_asFunction hl hr

theorem not_opens_lam {name : String} : ¬ Opens ((lam name l).whole ++ rest) := by
  intro h
  rw [whole_lam] at h
  exact absurd h.head (by decide)

theorem not_opens_binder {form : BinderForm} {name : String} {m : Layout} :
    ¬ Opens ((binder form name l m).whole ++ rest) := by
  intro h
  rw [whole_binder] at h
  cases form with
  | all =>
    -- the keyword is made of the characters of a word, so it has to be read as a whole
    rcases h with ⟨w, s, hw, hne, hs, heq⟩ | ⟨s, heq⟩
    · have hall : IsWord "all" := by decide
      exact hne (hw.eq_of_append_eq hall hs (apart_cons.mpr rfl) heq.symm).1
    · exact absurd (List.cons.inj heq).1 (by decide)
  | _ => exact absurd h.head (by decide)

end Openings

/-! ## Spines -/

/-- What stands after a function: an argument, or a type in braces. -/
inductive Part where
  | argument (l : Layout)
  | inner (l : Layout)

namespace Part

def attach (function : Layout) : Part → Layout
  | argument l => juxtaposed function l
  | inner l => braced function l

def chars : Part → List Char
  | argument l => ' ' :: l.asArgument
  | inner l => ' ' :: '\x7b' :: (l.whole ++ ['\x7d'])

def Readable : Part → Prop
  | argument l | inner l => l.Readable

theorem argument_append {l : Layout} {rest : List Char} :
    (argument l).chars ++ rest = ' ' :: (l.asArgument ++ rest) := rfl

theorem inner_append {l : Layout} {rest : List Char} :
    (inner l).chars ++ rest = ' ' :: '\x7b' :: (l.whole ++ '\x7d' :: rest) := by
  simp [chars]

end Part

/-- Every function is a head with parts after it, one after the other. -/
theorem exists_spine {l : Layout} (hl : l.Readable) : ∃ head : Layout, ∃ parts : List Part,
    head.Readable ∧ (∀ p ∈ parts, p.Readable) ∧ l = parts.foldl Part.attach head ∧
      l.asFunction = head.asArgument ++ parts.flatMap Part.chars := by
  -- the last part of the spine is the outermost constructor
  induction l using spine_induction with
  | juxtaposed function argument ih =>
    obtain ⟨head, parts, hhead, hparts, rfl, htext⟩ := ih hl.1
    refine ⟨head, parts ++ [.argument argument], hhead, ?_, by simp [Part.attach], ?_⟩
    · exact List.forall_mem_append.mpr ⟨hparts, List.forall_mem_singleton.mpr hl.2⟩
    · simp [asFunction_juxtaposed, htext, Part.chars]
  | braced function inner ih =>
    obtain ⟨head, parts, hhead, hparts, rfl, htext⟩ := ih hl.1
    refine ⟨head, parts ++ [.inner inner], hhead, ?_, by simp [Part.attach], ?_⟩
    · exact List.forall_mem_append.mpr ⟨hparts, List.forall_mem_singleton.mpr hl.2⟩
    · simp [asFunction_braced, htext, Part.chars]
  | single l h => exact ⟨l, [], hl, by simp, rfl, by simp [h]⟩

end Layout

end FomegaLab
