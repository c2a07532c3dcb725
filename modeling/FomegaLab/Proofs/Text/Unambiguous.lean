-- The readable text of a kind, of a type, of a term or of an untyped term, with kinds and
-- uniques shown, belongs to no other value of its sort. The text is that of a layout, the
-- layout is readable if the names are plain, and the layout tells the value.
import FomegaLab.Named.Subst
import FomegaLab.Proofs.Text.Reading

namespace FomegaLab

/-- Kinds and uniques are shown. -/
def PrettyStyle.full : PrettyStyle := ⟨true, true⟩

/-! ## Plain values -/

def TyName.IsPlain (a : TyName) : Prop := IsPlainName a.text a.unique

def Name.IsPlain (x : Name) : Prop := IsPlainName x.text x.unique

/-- All names are plain, those of binders too. -/
def Ty.IsPlain : Ty → Prop
  | .var a => a.IsPlain
  | .arrow argument result => argument.IsPlain ∧ result.IsPlain
  | .all a _ body | .lam a _ body => a.IsPlain ∧ body.IsPlain
  | .app function argument => function.IsPlain ∧ argument.IsPlain
  | .builtin _ => True

/-- All names are plain, those in types too, and each literal is one of its builtin type. -/
def Term.IsPlain : Term → Prop
  | .var x => x.IsPlain
  | .lam x type body => x.IsPlain ∧ type.IsPlain ∧ body.IsPlain
  | .app function argument => function.IsPlain ∧ argument.IsPlain
  | .tyLam a _ body => a.IsPlain ∧ body.IsPlain
  | .inst term type => term.IsPlain ∧ type.IsPlain
  | .const l => l ∈ l.builtin.literals
  | .error type => type.IsPlain

/-- All names are plain, and each literal is one of its builtin type. -/
def UTerm.IsPlain : UTerm → Prop
  | .var x => x.IsPlain
  | .lam x body => x.IsPlain ∧ body.IsPlain
  | .app function argument => function.IsPlain ∧ argument.IsPlain
  | .delay body => body.IsPlain
  | .force term => term.IsPlain
  | .const l => l ∈ l.builtin.literals
  | .error => True

/-! ## Layouts of the four sorts -/

def Kind.layout : Kind → Layout
  | .star => .word "*"
  | .arrow argument result => .arrow argument.layout result.layout

def Ty.layout : Ty → Layout
  | .var a => .word a.full
  | .arrow argument result => .arrow argument.layout result.layout
  | .all a kind body => .binder .all a.full kind.layout body.layout
  | .lam a kind body => .binder .tyLam a.full kind.layout body.layout
  | .app function argument => .juxtaposed function.layout argument.layout
  | .builtin b => .word b.text

def Literal.layout (l : Literal) : Layout :=
  match l.value with
  | none => .unit
  | some true => .word "True"
  | some false => .word "False"

def Term.layout : Term → Layout
  | .var x => .word x.full
  | .lam x type body => .binder .lam x.full type.layout body.layout
  | .app function argument => .juxtaposed function.layout argument.layout
  | .tyLam a kind body => .binder .tyAbs a.full kind.layout body.layout
  | .inst term type => .braced term.layout type.layout
  | .const l => l.layout
  | .error type => .braced (.word "error") type.layout

def UTerm.layout : UTerm → Layout
  | .var x => .word x.full
  | .lam x body => .lam x.full body.layout
  | .app function argument => .juxtaposed function.layout argument.layout
  | .delay body => .juxtaposed (.word "delay") body.layout
  | .force term => .juxtaposed (.word "force") term.layout
  | .const l => l.layout
  | .error => .word "error"

theorem Kind.doc_layout (k : Kind) : k.layout.doc = k.doc := by
  induction k with
  | star => rfl
  | arrow argument result ih ih' => simp only [layout, Layout.doc, doc, ih, ih']

/-- A binder of a type variable, with the parentheses around it in what it stands between. -/
theorem PrettyStyle.head_tyBinder {form : BinderForm} (lead tail : String)
    (hlead : form.lead = lead ++ "(") (hmark : form.mark = " :: ") (htail : form.tail = ")" ++ tail)
    (a : TyName) (k : Kind) :
    form.lead ++ a.full ++ form.mark ++ k.layout.doc.text ++ form.tail =
      lead ++ full.tyBinder a k ++ tail := by
  rw [hlead, hmark, htail, k.doc_layout]
  change _ = lead ++ ("(" ++ a.full ++ " :: " ++ k.doc.text ++ ")") ++ tail
  simp only [String.append_assoc]

theorem Ty.doc_layout (t : Ty) : t.layout.doc = t.doc .full := by
  induction t with
  | var | builtin => rfl
  | arrow _ _ ih ih' | app _ _ ih ih' => simp only [layout, Layout.doc, doc, ih, ih']
  | all a k body ih =>
    simp only [layout, Layout.doc, doc, ih]
    rw [PrettyStyle.head_tyBinder "all " ". " rfl rfl rfl]
  | lam a k body ih =>
    simp only [layout, Layout.doc, doc, ih]
    rw [PrettyStyle.head_tyBinder "\\" " -> " rfl rfl rfl]

theorem Literal.doc_layout (l : Literal) : l.layout.doc = .atom l.text := by
  unfold layout text
  rcases l.value with _ | _ | _ <;> rfl

theorem Term.doc_layout (t : Term) : t.layout.doc = t.doc .full := by
  induction t with
  | var => rfl
  | const l => exact l.doc_layout
  | app _ _ ih ih' => simp only [layout, Layout.doc, doc, ih, ih']
  | lam x type body ih =>
    simp only [layout, Layout.doc, doc, ih, type.doc_layout]
    rfl
  | tyLam a k body ih =>
    simp only [layout, Layout.doc, doc, ih]
    rw [PrettyStyle.head_tyBinder "/\\" " -> " rfl rfl rfl]
  | inst term type ih => simp only [layout, Layout.doc, doc, ih, type.doc_layout]
  | error type =>
    simp only [layout, Layout.doc, doc, type.doc_layout]
    rfl

theorem UTerm.doc_layout (t : UTerm) : t.layout.doc = t.doc .full := by
  induction t with
  | var | error => rfl
  | const l => exact l.doc_layout
  | app _ _ ih ih' => simp only [layout, Layout.doc, doc, ih, ih']
  | lam x body ih =>
    simp only [layout, Layout.doc, doc, ih]
    rfl
  | delay body ih | force body ih =>
    simp only [layout, Layout.doc, doc, ih]
    rfl

/-! ## Plain values have readable layouts -/

theorem IsPlainName.readable_word {text : String} {unique : Int} (h : IsPlainName text unique) :
    (Layout.word (uniqueText text unique)).Readable :=
  ⟨h.isWord, h.ne_of_mark_not_mem (by decide)⟩

theorem Kind.readable_layout (k : Kind) : k.layout.Readable := by
  induction k with
  | star => exact ⟨by decide, by decide⟩
  | arrow _ _ ih ih' => exact ⟨ih, ih'⟩

theorem Ty.readable_layout {t : Ty} (ht : t.IsPlain) : t.layout.Readable := by
  induction t with
  | var a => exact IsPlainName.readable_word ht
  | builtin b => cases b <;> exact ⟨by decide, by decide⟩
  | arrow _ _ ih ih' | app _ _ ih ih' => exact ⟨ih ht.1, ih' ht.2⟩
  | all a k body ih | lam a k body ih =>
    exact ⟨IsPlainName.isWord ht.1, k.readable_layout, ih ht.2⟩

theorem Literal.readable_layout (l : Literal) : l.layout.Readable := by
  unfold layout
  rcases l.value with _ | _ | _
  · trivial
  · exact ⟨by decide, by decide⟩
  · exact ⟨by decide, by decide⟩

theorem Term.readable_layout {t : Term} (ht : t.IsPlain) : t.layout.Readable := by
  induction t with
  | var x => exact IsPlainName.readable_word ht
  | const l => exact l.readable_layout
  | app _ _ ih ih' => exact ⟨ih ht.1, ih' ht.2⟩
  | lam x type body ih =>
    exact ⟨IsPlainName.isWord ht.1, Ty.readable_layout ht.2.1, ih ht.2.2⟩
  | tyLam a k body ih => exact ⟨IsPlainName.isWord ht.1, k.readable_layout, ih ht.2⟩
  | inst term type ih => exact ⟨ih ht.1, Ty.readable_layout ht.2⟩
  | error type => exact ⟨⟨by decide, by decide⟩, Ty.readable_layout ht⟩

theorem UTerm.readable_layout {t : UTerm} (ht : t.IsPlain) : t.layout.Readable := by
  induction t with
  | var x => exact IsPlainName.readable_word ht
  | const l => exact l.readable_layout
  | app _ _ ih ih' => exact ⟨ih ht.1, ih' ht.2⟩
  | lam x body ih => exact ⟨IsPlainName.isWord ht.1, ih ht.2⟩
  | delay _ ih | force _ ih => exact ⟨⟨by decide, by decide⟩, ih ht⟩
  | error => exact ⟨by decide, by decide⟩

/-! ## A layout tells the value -/

theorem TyName.full_inj {a a' : TyName} (ha : a.IsPlain) (ha' : a'.IsPlain)
    (h : a.full = a'.full) : a = a' := by
  obtain ⟨htext, hunique⟩ := IsPlainName.eq_of_uniqueText_eq ha ha' h
  cases a
  cases a'
  simp_all

theorem Name.full_inj {x x' : Name} (hx : x.IsPlain) (hx' : x'.IsPlain)
    (h : x.full = x'.full) : x = x' := by
  obtain ⟨htext, hunique⟩ := IsPlainName.eq_of_uniqueText_eq hx hx' h
  cases x
  cases x'
  simp_all

theorem Kind.layout_inj {k k' : Kind} (h : k.layout = k'.layout) : k = k' := by
  induction k generalizing k' with
  | star => cases k' <;> first | rfl | contradiction
  | arrow argument result ih ih' =>
    cases k' with
    | star => contradiction
    | arrow argument' result' =>
      simp only [layout, Layout.arrow.injEq] at h
      rw [ih h.1, ih' h.2]

theorem Ty.layout_inj {t t' : Ty} (ht : t.IsPlain) (ht' : t'.IsPlain)
    (h : t.layout = t'.layout) : t = t' := by
  have hbuiltin : ∀ {a : TyName} {b : Builtin}, a.IsPlain → a.full ≠ b.text := by
    intro a b ha
    exact IsPlainName.ne_of_mark_not_mem ha (by cases b <;> decide)
  induction t generalizing t' with
  | var a =>
    cases t' with
    | var a' => rw [TyName.full_inj ht ht' (Layout.word.inj h)]
    | builtin b' => exact absurd (Layout.word.inj h) (hbuiltin ht)
    | _ => contradiction
  | builtin b =>
    cases t' with
    | var a' => exact absurd (Layout.word.inj h).symm (hbuiltin ht')
    | builtin b' =>
      have htext := Layout.word.inj h
      cases b <;> cases b' <;> first | rfl | contradiction
    | _ => contradiction
  | arrow argument result ih ih' =>
    cases t' with
    | arrow argument' result' =>
      obtain ⟨hargument, hresult⟩ := Layout.arrow.inj h
      rw [ih ht.1 ht'.1 hargument, ih' ht.2 ht'.2 hresult]
    | _ => contradiction
  | app function argument ih ih' =>
    cases t' with
    | app function' argument' =>
      obtain ⟨hfunction, hargument⟩ := Layout.juxtaposed.inj h
      rw [ih ht.1 ht'.1 hfunction, ih' ht.2 ht'.2 hargument]
    | _ => contradiction
  | all a k body ih =>
    cases t' with
    | all a' k' body' =>
      obtain ⟨-, hname, hkind, hbody⟩ := Layout.binder.inj h
      rw [TyName.full_inj ht.1 ht'.1 hname, Kind.layout_inj hkind, ih ht.2 ht'.2 hbody]
    | lam => exact absurd (Layout.binder.inj h).1 (by decide)
    | _ => contradiction
  | lam a k body ih =>
    cases t' with
    | lam a' k' body' =>
      obtain ⟨-, hname, hkind, hbody⟩ := Layout.binder.inj h
      rw [TyName.full_inj ht.1 ht'.1 hname, Kind.layout_inj hkind, ih ht.2 ht'.2 hbody]
    | all => exact absurd (Layout.binder.inj h).1 (by decide)
    | _ => contradiction

/-- A literal is laid out like no other syntax. -/
theorem Literal.layout_ne {l : Literal} {m : Layout} (hunit : m ≠ .unit)
    (htrue : m ≠ .word "True") (hfalse : m ≠ .word "False") : m ≠ l.layout := by
  unfold layout
  rcases l.value with _ | _ | _
  · exact hunit
  · exact hfalse
  · exact htrue

theorem Literal.layout_inj {l l' : Literal} (hl : l ∈ l.builtin.literals)
    (hl' : l' ∈ l'.builtin.literals) (h : l.layout = l'.layout) : l = l' := by
  have hall : ∀ b b' : Builtin, ∀ m ∈ b.literals, ∀ m' ∈ b'.literals,
      m.layout = m'.layout → m = m' := by
    intro b b'
    cases b <;> cases b' <;> decide
  exact hall l.builtin l'.builtin l hl l' hl' h

/-- A name is laid out like no keyword and no literal. -/
theorem IsPlainName.word_ne {text w : String} {unique : Int} (h : IsPlainName text unique)
    (hw : '_' ∉ w.toList) : Layout.word (uniqueText text unique) ≠ .word w :=
  fun heq => h.ne_of_mark_not_mem hw (Layout.word.inj heq)

theorem Literal.layout_ne_name {l : Literal} {text : String} {unique : Int}
    (h : IsPlainName text unique) : .word (uniqueText text unique) ≠ l.layout :=
  Literal.layout_ne nofun (h.word_ne (by decide)) (h.word_ne (by decide))

/-- Nothing but the error itself begins as an error does. -/
theorem Term.layout_ne_error {t : Term} (ht : t.IsPlain) : .word "error" ≠ t.layout := by
  cases t with
  | var x => exact (IsPlainName.word_ne ht (by decide)).symm
  | const l => exact Literal.layout_ne nofun (by decide) (by decide)
  | _ => exact nofun

theorem Term.layout_inj {t t' : Term} (ht : t.IsPlain) (ht' : t'.IsPlain)
    (h : t.layout = t'.layout) : t = t' := by
  induction t generalizing t' with
  | var x =>
    cases t' with
    | var x' => rw [Name.full_inj ht ht' (Layout.word.inj h)]
    | const l' => exact absurd h (Literal.layout_ne_name ht)
    | _ => contradiction
  | const l =>
    cases t' with
    | const l' => rw [Literal.layout_inj ht ht' h]
    | var x' => exact absurd h.symm (Literal.layout_ne_name ht')
    | _ => exact absurd h.symm (Literal.layout_ne nofun nofun nofun)
  | lam x type body ih =>
    cases t' with
    | lam x' type' body' =>
      obtain ⟨-, hname, htype, hbody⟩ := Layout.binder.inj h
      rw [Name.full_inj ht.1 ht'.1 hname, Ty.layout_inj ht.2.1 ht'.2.1 htype,
        ih ht.2.2 ht'.2.2 hbody]
    | tyLam => exact absurd (Layout.binder.inj h).1 (by decide)
    | const l' => exact absurd h (Literal.layout_ne nofun nofun nofun)
    | _ => contradiction
  | app function argument ih ih' =>
    cases t' with
    | app function' argument' =>
      obtain ⟨hfunction, hargument⟩ := Layout.juxtaposed.inj h
      rw [ih ht.1 ht'.1 hfunction, ih' ht.2 ht'.2 hargument]
    | const l' => exact absurd h (Literal.layout_ne nofun nofun nofun)
    | _ => contradiction
  | tyLam a k body ih =>
    cases t' with
    | tyLam a' k' body' =>
      obtain ⟨-, hname, hkind, hbody⟩ := Layout.binder.inj h
      rw [TyName.full_inj ht.1 ht'.1 hname, Kind.layout_inj hkind, ih ht.2 ht'.2 hbody]
    | lam => exact absurd (Layout.binder.inj h).1 (by decide)
    | const l' => exact absurd h (Literal.layout_ne nofun nofun nofun)
    | _ => contradiction
  | inst term type ih =>
    cases t' with
    | inst term' type' =>
      obtain ⟨hterm, htype⟩ := Layout.braced.inj h
      rw [ih ht.1 ht'.1 hterm, Ty.layout_inj ht.2 ht'.2 htype]
    | error type' => exact absurd (Layout.braced.inj h).1.symm (layout_ne_error ht.1)
    | const l' => exact absurd h (Literal.layout_ne nofun nofun nofun)
    | _ => contradiction
  | error type =>
    cases t' with
    | error type' => rw [Ty.layout_inj ht ht' (Layout.braced.inj h).2]
    | inst term' type' => exact absurd (Layout.braced.inj h).1 (layout_ne_error ht'.1)
    | const l' => exact absurd h (Literal.layout_ne nofun nofun nofun)
    | _ => contradiction

/-- Nothing but a delay begins as a delay does, and nothing but a force as a force does. -/
theorem UTerm.layout_ne_keyword {t : UTerm} (ht : t.IsPlain) {w : String}
    (hw : w = "delay" ∨ w = "force") : .word w ≠ t.layout := by
  cases t with
  | var x => rcases hw with rfl | rfl <;> exact (IsPlainName.word_ne ht (by decide)).symm
  | const l => rcases hw with rfl | rfl <;> exact Literal.layout_ne nofun (by decide) (by decide)
  | error => rcases hw with rfl | rfl <;> decide
  | _ => exact nofun

theorem UTerm.layout_inj {t t' : UTerm} (ht : t.IsPlain) (ht' : t'.IsPlain)
    (h : t.layout = t'.layout) : t = t' := by
  induction t generalizing t' with
  | var x =>
    cases t' with
    | var x' => rw [Name.full_inj ht ht' (Layout.word.inj h)]
    | const l' => exact absurd h (Literal.layout_ne_name ht)
    | error => exact absurd h (IsPlainName.word_ne ht (by decide))
    | _ => contradiction
  | const l =>
    cases t' with
    | const l' => rw [Literal.layout_inj ht ht' h]
    | var x' => exact absurd h.symm (Literal.layout_ne_name ht')
    | error => exact absurd h.symm (Literal.layout_ne nofun (by decide) (by decide))
    | _ => exact absurd h.symm (Literal.layout_ne nofun nofun nofun)
  | error =>
    cases t' with
    | error => rfl
    | var x' => exact absurd h.symm (IsPlainName.word_ne ht' (by decide))
    | const l' => exact absurd h (Literal.layout_ne nofun (by decide) (by decide))
    | _ => contradiction
  | lam x body ih =>
    cases t' with
    | lam x' body' =>
      obtain ⟨hname, hbody⟩ := Layout.lam.inj h
      rw [Name.full_inj ht.1 ht'.1 hname, ih ht.2 ht'.2 hbody]
    | const l' => exact absurd h (Literal.layout_ne nofun nofun nofun)
    | _ => contradiction
  | app function argument ih ih' =>
    cases t' with
    | app function' argument' =>
      obtain ⟨hfunction, hargument⟩ := Layout.juxtaposed.inj h
      rw [ih ht.1 ht'.1 hfunction, ih' ht.2 ht'.2 hargument]
    | delay => exact absurd (Layout.juxtaposed.inj h).1.symm (layout_ne_keyword ht.1 (.inl rfl))
    | force => exact absurd (Layout.juxtaposed.inj h).1.symm (layout_ne_keyword ht.1 (.inr rfl))
    | const l' => exact absurd h (Literal.layout_ne nofun nofun nofun)
    | _ => contradiction
  | delay body ih =>
    cases t' with
    | delay body' =>
      have hbody : body = body' := ih ht ht' (Layout.juxtaposed.inj h).2
      rw [hbody]
    | app => exact absurd (Layout.juxtaposed.inj h).1 (layout_ne_keyword ht'.1 (.inl rfl))
    | force => exact absurd (Layout.juxtaposed.inj h).1 (by decide)
    | const l' => exact absurd h (Literal.layout_ne nofun nofun nofun)
    | _ => contradiction
  | force term ih =>
    cases t' with
    | force term' =>
      have hterm : term = term' := ih ht ht' (Layout.juxtaposed.inj h).2
      rw [hterm]
    | app => exact absurd (Layout.juxtaposed.inj h).1 (layout_ne_keyword ht'.1 (.inr rfl))
    | delay => exact absurd (Layout.juxtaposed.inj h).1 (by decide)
    | const l' => exact absurd h (Literal.layout_ne nofun nofun nofun)
    | _ => contradiction

/-! ## One reading of a text -/

/-- With kinds and uniques shown, the texts of two kinds, types, terms or untyped terms with
plain names and listed literals are different if the values are, bound names included. -/
theorem a_readable_text_has_one_reading :
    (∀ k k' : Kind, k.pretty = k'.pretty → k = k') ∧
    (∀ t t' : Ty, t.IsPlain → t'.IsPlain → t.pretty .full = t'.pretty .full → t = t') ∧
    (∀ t t' : Term, t.IsPlain → t'.IsPlain → t.pretty .full = t'.pretty .full → t = t') ∧
    ∀ t t' : UTerm, t.IsPlain → t'.IsPlain → t.pretty .full = t'.pretty .full → t = t' := by
  refine ⟨?_, ?_, ?_, ?_⟩
  · intro k k' h
    unfold Kind.pretty at h
    rw [← k.doc_layout, ← k'.doc_layout] at h
    exact Kind.layout_inj (Layout.eq_of_text_eq k.readable_layout k'.readable_layout h)
  · intro t t' ht ht' h
    unfold Ty.pretty at h
    rw [← t.doc_layout, ← t'.doc_layout] at h
    exact Ty.layout_inj ht ht'
      (Layout.eq_of_text_eq (Ty.readable_layout ht) (Ty.readable_layout ht') h)
  · intro t t' ht ht' h
    unfold Term.pretty at h
    rw [← t.doc_layout, ← t'.doc_layout] at h
    exact Term.layout_inj ht ht'
      (Layout.eq_of_text_eq (Term.readable_layout ht) (Term.readable_layout ht') h)
  · intro t t' ht ht' h
    unfold UTerm.pretty at h
    rw [← t.doc_layout, ← t'.doc_layout] at h
    exact UTerm.layout_inj ht ht'
      (Layout.eq_of_text_eq (UTerm.readable_layout ht) (UTerm.readable_layout ht') h)

/-- A kind, a type, a term and an untyped term that are made in two ways: by hand, and by
listing, by substitution for types and by erasure. -/
theorem a_readable_text_has_one_reading_of_an_instance :
    let a : TyName := ⟨"a", 0⟩
    let b : TyName := ⟨"b", 1⟩
    let x : Name := ⟨"x", 2⟩
    let k : Kind := .arrow (.arrow .star .star) .star
    let k' : Kind := (Kind.ofSize 5).getLast (by decide)
    let t : Ty := .all a k (.arrow (.app (.var a) (.lam b .star (.var b))) (.builtin .unit))
    let pattern : Ty := .all a k (.arrow (.app (.var a) (.lam b .star (.var b))) (.var b))
    let t' : Ty := (pattern.subst b (.builtin .unit) 3).1
    let f : Term := .app (.lam x t (.app (.var x) (.const ⟨.unit, none⟩))) (.error t)
    let e : Term := .inst f t
    let e' : Term := (Term.substType (.inst f (.var b)) b t 3).1
    let u : UTerm := .force (.app (.lam x (.app (.var x) (.const ⟨.unit, none⟩))) .error)
    (k.pretty = k'.pretty ∧ k = k') ∧
      (t.IsPlain ∧ t'.IsPlain ∧ t.pretty .full = t'.pretty .full ∧ t = t') ∧
      (e.IsPlain ∧ e'.IsPlain ∧ e.pretty .full = e'.pretty .full ∧ e = e') ∧
      u.IsPlain ∧ e.erase.IsPlain ∧ u.pretty .full = e.erase.pretty .full ∧ u = e.erase := by
  intro a b x k k' t pattern t' f e e' u
  have ha : a.IsPlain := (by decide : IsPlainName "a" 0)
  have hb : b.IsPlain := (by decide : IsPlainName "b" 1)
  have hx : x.IsPlain := (by decide : IsPlainName "x" 2)
  have hl : (⟨.unit, none⟩ : Literal) ∈ Builtin.unit.literals := by decide
  have ht : t.IsPlain := ⟨ha, ⟨ha, hb, hb⟩, trivial⟩
  have he : e.IsPlain := ⟨⟨⟨hx, ht, hx, hl⟩, ht⟩, ht⟩
  have hu : u.IsPlain := ⟨⟨hx, hx, hl⟩, trivial⟩
  obtain ⟨hkinds, htypes, hterms, huntyped⟩ := a_readable_text_has_one_reading
  exact ⟨⟨rfl, hkinds k k' rfl⟩, ⟨ht, ht, rfl, htypes t t' ht ht rfl⟩,
    ⟨he, he, rfl, hterms e e' he he rfl⟩, hu, hu, rfl, huntyped u e.erase hu hu rfl⟩

end FomegaLab
