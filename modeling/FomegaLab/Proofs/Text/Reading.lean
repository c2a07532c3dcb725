-- A text has one reading. Two layouts with the same text, up to what follows it, are the same
-- layout. The induction is on the length of the text, with one step for each place: a place is
-- read by what its parts are, and the parts of an argument in parentheses, of a type in braces
-- and of a binder are shorter whole texts.
import FomegaLab.Proofs.Text.Layout

namespace FomegaLab

namespace Layout

/-! ## What follows a text -/

/-- A whole text goes up to here: nothing follows, or a bracket closes. -/
def Ends (rest : List Char) : Prop := ∀ c ∈ rest.head?, c = ')' ∨ c = '\x7d'

/-- A function goes up to here: no part of a spine follows. -/
def Stops (rest : List Char) : Prop := Apart rest ∧ ∀ c s, rest = ' ' :: c :: s → c = '-'

theorem Ends.stops {rest : List Char} (h : Ends rest) : Stops rest := by
  unfold Ends at h
  refine ⟨?_, ?_⟩
  · intro c hc
    rcases h c hc with rfl | rfl <;> rfl
  · rintro c s rfl
    rcases h ' ' rfl with h | h <;> contradiction

theorem stops_at_arrow {rest : List Char} : Stops (' ' :: '-' :: rest) := by
  refine ⟨apart_cons.mpr rfl, ?_⟩
  intro c s h
  exact (List.cons.inj (List.cons.inj h).2).1.symm

theorem not_ends_space {rest : List Char} : ¬ Ends (' ' :: rest) := by
  intro h
  rcases h ' ' rfl with h | h <;> contradiction

/-! ## One reading -/

/-- A text in a place that is shorter than `n` tells its layout, and where the text ends, if
only what may follow there does. -/
def OneReading (place : Layout → List Char) (Follows : List Char → Prop) (n : Nat) : Prop :=
  ∀ {l l' : Layout} {rest rest' : List Char}, l.Readable → l'.Readable → Follows rest →
    Follows rest' → (place l).length < n → place l ++ rest = place l' ++ rest' →
      l = l' ∧ rest = rest'

section Steps

variable {n : Nat} {l l' : Layout} {rest rest' : List Char}

/-- So the unit is not mistaken for something in parentheses. -/
theorem whole_append_ne (hl : l.Readable) (hr : Apart rest) {s : List Char} :
    l.whole ++ rest ≠ ')' :: s := by
  intro h
  rcases l.whole_cases with ⟨form, name, ascription, body, rfl⟩ | ⟨name, body, rfl⟩ | hw
  · rw [whole_binder] at h
    cases form <;> exact absurd (List.cons.inj h).1 (by decide)
  · rw [whole_lam] at h
    exact absurd (List.cons.inj h).1 (by decide)
  · have hopens := opens_afterArrow hl hr
    rw [← hw, h] at hopens
    exact absurd hopens.head (by decide)

/-- An argument is a word, the unit, or a shorter whole text in parentheses. -/
theorem OneReading.argument (ih : OneReading whole Ends n) :
    OneReading asArgument Apart (n + 1) := by
  intro l l' rest rest' hl hl' hr hr' hn h
  have hclosed : ∀ {s : List Char}, Apart (')' :: s) ∧ Ends (')' :: s) := by
    intro s
    exact ⟨apart_cons.mpr rfl, by simp [Ends]⟩
  rcases l.asArgument_cases with ⟨w, rfl⟩ | rfl | he <;>
    rcases l'.asArgument_cases with ⟨w', rfl⟩ | rfl | he'
  · obtain ⟨rfl, hrest⟩ := hl.1.eq_of_append_eq hl'.1 hr hr' h
    exact ⟨rfl, hrest⟩
  · exact absurd h (hl.1.append_ne_cons rfl)
  · rw [he'] at h
    exact absurd h (hl.1.append_ne_cons rfl)
  · exact absurd h.symm (hl'.1.append_ne_cons rfl)
  · exact ⟨rfl, List.append_cancel_left h⟩
  · rw [he', enclosed_append] at h
    exact absurd (List.cons.inj h).2.symm (whole_append_ne hl' hclosed.1)
  · rw [he] at h
    exact absurd h.symm (hl'.1.append_ne_cons rfl)
  · rw [he, enclosed_append] at h
    exact absurd (List.cons.inj h).2 (whole_append_ne hl hclosed.1)
  · rw [he, he', enclosed_append, enclosed_append] at h
    rw [he, enclosed, List.length_cons] at hn
    have hlen : l.whole.length < n := by
      rw [List.length_append] at hn
      omega
    -- both end at a closing parenthesis, which only their own can be
    obtain ⟨rfl, hrest⟩ := ih hl hl' hclosed.2 hclosed.2 hlen (List.cons.inj h).2
    exact ⟨rfl, (List.cons.inj hrest).2⟩

theorem apart_parts {parts : List Part} (hr : Apart rest) :
    Apart (parts.flatMap Part.chars ++ rest) := by
  rcases parts with _ | ⟨p, parts⟩
  · exact hr
  · cases p <;> exact apart_cons.mpr rfl

/-- No part of a spine begins as an arrow does. -/
theorem Part.exists_cons {p : Part} (hp : p.Readable) (hr : Apart rest) :
    ∃ c s, p.chars ++ rest = ' ' :: c :: s ∧ c ≠ '-' := by
  cases p with
  | argument l =>
    obtain ⟨c, s, hs, hc⟩ := (opens_asArgument hp hr).exists_cons
    refine ⟨c, s, by rw [chars, List.cons_append, hs], ?_⟩
    rintro rfl
    exact absurd hc (by decide)
  | inner l => exact ⟨'\x7b', _, rfl, by decide⟩

theorem Stops.ne_part {p : Part} (h : Stops rest) (hp : p.Readable) (hr : Apart rest') :
    rest ≠ p.chars ++ rest' := by
  rintro rfl
  obtain ⟨c, s, hs, hc⟩ := Part.exists_cons hp hr
  exact hc (h.2 c s hs)

theorem argument_append_ne (hl : l.Readable) (hr : Apart rest) {s : List Char} :
    l.asArgument ++ rest ≠ '\x7b' :: s := by
  intro h
  have hopens := opens_asArgument hl hr
  rw [h] at hopens
  exact absurd hopens.head (by decide)

theorem OneReading.part (ih : OneReading whole Ends n) {p p' : Part} (hp : p.Readable)
    (hp' : p'.Readable) (hr : Apart rest) (hr' : Apart rest') (hn : p.chars.length < n + 1)
    (h : p.chars ++ rest = p'.chars ++ rest') : p = p' ∧ rest = rest' := by
  have hbrace : ∀ {s : List Char}, Ends ('\x7d' :: s) := by simp [Ends]
  cases p with
  | argument l =>
    cases p' with
    | argument l' =>
      rw [Part.argument_append, Part.argument_append] at h
      rw [Part.chars, List.length_cons] at hn
      obtain ⟨rfl, hrest⟩ := ih.argument hp hp' hr hr' (by omega) (List.cons.inj h).2
      exact ⟨rfl, hrest⟩
    | inner l' =>
      rw [Part.argument_append, Part.inner_append] at h
      exact absurd (List.cons.inj h).2 (argument_append_ne hp hr)
  | inner l =>
    cases p' with
    | argument l' =>
      rw [Part.argument_append, Part.inner_append] at h
      exact absurd (List.cons.inj h).2.symm (argument_append_ne hp' hr')
    | inner l' =>
      rw [Part.inner_append, Part.inner_append] at h
      have hlen : l.whole.length < n := by
        simp only [Part.chars, List.length_cons, List.length_append] at hn
        omega
      have h := (List.cons.inj (List.cons.inj h).2).2
      obtain ⟨rfl, hrest⟩ := ih hp hp' hbrace hbrace hlen h
      exact ⟨rfl, (List.cons.inj hrest).2⟩

/-- Two spines go on together and stop together. -/
theorem OneReading.parts (ih : OneReading whole Ends n) {parts parts' : List Part}
    (hp : ∀ p ∈ parts, p.Readable) (hp' : ∀ p ∈ parts', p.Readable) (hr : Stops rest)
    (hr' : Stops rest') (hn : (parts.flatMap Part.chars).length < n + 1)
    (h : parts.flatMap Part.chars ++ rest = parts'.flatMap Part.chars ++ rest') :
    parts = parts' ∧ rest = rest' := by
  induction parts generalizing parts' with
  | nil =>
    cases parts' with
    | nil => exact ⟨rfl, h⟩
    | cons p' ps' =>
      rw [List.flatMap_cons, List.append_assoc] at h
      exact absurd h (hr.ne_part (hp' p' (by simp)) (apart_parts hr'.1))
  | cons p ps ihps =>
    rw [List.flatMap_cons, List.append_assoc] at h
    cases parts' with
    | nil => exact absurd h.symm (hr'.ne_part (hp p (by simp)) (apart_parts hr.1))
    | cons p' ps' =>
      rw [List.forall_mem_cons] at hp hp'
      rw [List.flatMap_cons, List.append_assoc] at h
      rw [List.flatMap_cons, List.length_append] at hn
      obtain ⟨rfl, htail⟩ := ih.part hp.1 hp'.1 (apart_parts hr.1) (apart_parts hr'.1)
        (by omega) h
      obtain ⟨rfl, hrest⟩ := ihps hp.2 hp'.2 (by omega) htail
      exact ⟨rfl, hrest⟩

/-- A function is read by its head and then part by part. -/
theorem OneReading.function (ih : OneReading whole Ends n) :
    OneReading asFunction Stops (n + 1) := by
  intro l l' rest rest' hl hl' hr hr' hn h
  obtain ⟨head, parts, hhead, hparts, rfl, htext⟩ := exists_spine hl
  obtain ⟨head', parts', hhead', hparts', rfl, htext'⟩ := exists_spine hl'
  rw [htext, htext', List.append_assoc, List.append_assoc] at h
  rw [htext, List.length_append] at hn
  obtain ⟨rfl, htail⟩ := ih.argument hhead hhead' (apart_parts hr.1) (apart_parts hr'.1)
    (by omega) h
  obtain ⟨rfl, hrest⟩ := ih.parts hparts hparts' hr hr' (by omega) htail
  exact ⟨rfl, hrest⟩

/-- Arrows are read from the left, and the last function is not followed by one. -/
theorem OneReading.afterArrow (ih : OneReading whole Ends n) :
    OneReading afterArrow Ends (n + 1) := by
  intro l l' rest rest' hl hl' hr hr' hn h
  induction l using arrow_induction generalizing l' with
  | arrow left right ihr =>
    rw [afterArrow_arrow, List.length_append] at hn
    rw [afterArrow_arrow, List.append_assoc] at h
    induction l' using arrow_induction with
    | arrow left' right' _ =>
      rw [afterArrow_arrow, List.append_assoc] at h
      obtain ⟨rfl, htail⟩ := ih.function hl.1 hl'.1 stops_at_arrow stops_at_arrow (by omega) h
      have htail : right.afterArrow ++ rest = right'.afterArrow ++ rest' := by
        simpa using htail
      simp only [List.length_cons] at hn
      obtain ⟨rfl, hrest⟩ := ihr hl.2 hl'.2 (by omega) htail
      exact ⟨rfl, hrest⟩
    | single l' he' =>
      rw [he'] at h
      obtain ⟨rfl, rfl⟩ := ih.function hl.1 hl' stops_at_arrow hr'.stops (by omega) h
      exact absurd hr' not_ends_space
  | single l he =>
    rw [he] at hn h
    induction l' using arrow_induction with
    | arrow left' right' _ =>
      rw [afterArrow_arrow, List.append_assoc] at h
      obtain ⟨rfl, rfl⟩ := ih.function hl hl'.1 hr.stops stops_at_arrow hn h
      exact absurd hr not_ends_space
    | single l' he' =>
      rw [he'] at h
      exact ih.function hl hl' hr.stops hr'.stops hn h

/-- A binder is told by what it leads with, or by the mark after its name. -/
theorem binder_head_inj {form form' : BinderForm} {name name' : String} {s s' : List Char}
    (hname : IsWord name) (hname' : IsWord name')
    (h : form.lead.toList ++ (name.toList ++ (form.mark.toList ++ s)) =
      form'.lead.toList ++ (name'.toList ++ (form'.mark.toList ++ s'))) :
    form = form' ∧ name = name' ∧ s = s' := by
  have hmark : ∀ (f : BinderForm) {t : List Char}, Apart (f.mark.toList ++ t) := by
    intro f t
    cases f <;> exact apart_cons.mpr rfl
  have hlead : form.lead = form'.lead := by
    cases form <;> cases form' <;> first
      | rfl
      | exact absurd (List.cons.inj h).1 (by decide)
  rw [hlead] at h
  obtain ⟨rfl, htail⟩ :=
    hname.eq_of_append_eq hname' (hmark form) (hmark form') (List.append_cancel_left h)
  have hform : form = form' := by
    cases form <;> cases form' <;> first
      | rfl
      | contradiction
      | exact absurd (List.cons.inj (List.cons.inj (List.cons.inj htail).2).2).1 (by decide)
  subst hform
  exact ⟨rfl, rfl, List.append_cancel_left htail⟩

/-- The two ways to write an abstraction differ after the backslash. -/
theorem binder_ne_lam {form : BinderForm} {name name' : String} {m : Layout}
    (hname' : IsWord name') :
    (binder form name l m).whole ++ rest ≠ (lam name' l').whole ++ rest' := by
  intro h
  simp only [whole_binder, whole_lam, List.append_assoc, List.cons_append] at h
  cases form with
  | all | tyAbs => exact absurd (List.cons.inj h).1 (by decide)
  | tyLam | lam => exact hname'.append_ne_cons rfl (List.cons.inj h).2.symm

/-- A whole text is a binder with two shorter texts in it, or has no binder to begin with. -/
theorem OneReading.whole (ih : OneReading whole Ends n) : OneReading whole Ends (n + 1) := by
  intro l l' rest rest' hl hl' hr hr' hn h
  rcases l.whole_cases with ⟨form, name, ascription, body, rfl⟩ | ⟨name, body, rfl⟩ | he <;>
    rcases l'.whole_cases with ⟨form', name', ascription', body', rfl⟩ | ⟨name', body', rfl⟩ | he'
  · -- the ascription ends at the closing parenthesis, and the body where the binder does
    have htail : ∀ (f : BinderForm) {t : List Char}, Ends (f.tail.toList ++ t) := by
      intro f t
      cases f <;> simp [Ends, BinderForm.tail]
    rw [whole_binder] at hn
    simp only [List.length_append] at hn
    simp only [whole_binder, List.append_assoc] at h
    obtain ⟨rfl, rfl, hascription⟩ := binder_head_inj hl.1 hl'.1 h
    have hlead : 0 < form.lead.toList.length := by cases form <;> decide
    obtain ⟨rfl, hbody⟩ :=
      ih hl.2.1 hl'.2.1 (htail form) (htail form) (by omega) hascription
    obtain ⟨rfl, hrest⟩ :=
      ih hl.2.2 hl'.2.2 hr hr' (by omega) (List.append_cancel_left hbody)
    exact ⟨rfl, hrest⟩
  · exact absurd h (binder_ne_lam hl'.1)
  · rw [he'] at h
    exact absurd (h ▸ opens_afterArrow hl' hr'.stops.1) not_opens_binder
  · exact absurd h.symm (binder_ne_lam hl.1)
  · rw [whole_lam] at hn
    simp only [List.length_cons, List.length_append] at hn
    simp only [whole_lam, List.cons_append, List.append_assoc] at h
    obtain ⟨rfl, harrow⟩ := hl.1.eq_of_append_eq hl'.1 (apart_cons.mpr rfl)
      (apart_cons.mpr rfl) (List.cons.inj h).2
    have hbody : body.whole ++ rest = body'.whole ++ rest' := by simpa using harrow
    obtain ⟨rfl, hrest⟩ := ih hl.2 hl'.2 hr hr' (by omega) hbody
    exact ⟨rfl, hrest⟩
  · rw [he'] at h
    exact absurd (h ▸ opens_afterArrow hl' hr'.stops.1) not_opens_lam
  · rw [he] at h
    exact absurd (h ▸ opens_afterArrow hl hr.stops.1) not_opens_binder
  · rw [he] at h
    exact absurd (h ▸ opens_afterArrow hl hr.stops.1) not_opens_lam
  · rw [he, he'] at h
    exact ih.afterArrow hl hl' hr hr' (he ▸ hn) h

end Steps

theorem oneReading_whole (n : Nat) : OneReading whole Ends n := by
  induction n with
  | zero => exact fun _ _ _ _ hn => absurd hn (Nat.not_lt_zero _)
  | succ n ih => exact ih.whole

/-- No two layouts have one text. -/
theorem eq_of_text_eq {l l' : Layout} (hl : l.Readable) (hl' : l'.Readable)
    (h : l.doc.text = l'.doc.text) : l = l' := by
  have hends : Ends [] := by simp [Ends]
  refine (oneReading_whole _ hl hl' hends hends (Nat.lt_succ_self _) ?_).1
  simp [whole, h]

end Layout

end FomegaLab
