-- Readable text of kinds, types and terms. Binders reach to the right as far as
-- they can, arrows associate to the right, and juxtaposition to the left. A part
-- gets parentheses when it binds less tightly than its place requires.
import FomegaLab.Named.Syntax

namespace FomegaLab

/-- What the text of named syntax shows. -/
structure PrettyStyle where
  /-- Binders of type variables show their kind. -/
  kinds : Bool
  /-- Names show their unique. -/
  uniques : Bool
deriving DecidableEq

/-- Kinds are shown and uniques are not. -/
def PrettyStyle.default : PrettyStyle := ⟨true, false⟩

/-- A text with how tightly it holds together. -/
structure Doc where
  text : String
  level : Nat

namespace Doc

def binderLevel : Nat := 1
def arrowLevel : Nat := 2
def juxtaposedLevel : Nat := 10
def atomLevel : Nat := 11

/-- The text for a place that requires a level. -/
def placed (d : Doc) (required : Nat) : String :=
  if required ≤ d.level then d.text else "(" ++ d.text ++ ")"

def atom (text : String) : Doc := ⟨text, atomLevel⟩

/-- `left -> right`, associating to the right. -/
def arrow (left right : Doc) : Doc :=
  ⟨left.placed (arrowLevel + 1) ++ " -> " ++ right.placed arrowLevel, arrowLevel⟩

/-- `left right`, associating to the left. -/
def juxtaposed (left right : Doc) : Doc :=
  ⟨left.placed juxtaposedLevel ++ " " ++ right.placed (juxtaposedLevel + 1), juxtaposedLevel⟩

/-- A binder and its body. -/
def binder (head : String) (body : Doc) : Doc := ⟨head ++ body.placed binderLevel, binderLevel⟩

/-- A keyword before an atom. -/
def keyword (word : String) (operand : Doc) : Doc :=
  ⟨word ++ " " ++ operand.placed atomLevel, juxtaposedLevel⟩

end Doc

/-- A text in braces. -/
def braced (text : String) : String := "\x7b" ++ text ++ "\x7d"

def Kind.doc : Kind → Doc
  | .star => .atom "*"
  | .arrow argument result => .arrow argument.doc result.doc

/-- A literal shows its value, whatever type it claims. -/
def Literal.text (l : Literal) : String :=
  match l.value with
  | none => "()"
  | some true => "True"
  | some false => "False"

namespace PrettyStyle

variable (style : PrettyStyle)

def name (x : Name) : String := if style.uniques then x.full else x.text

def tyName (a : TyName) : String := if style.uniques then a.full else a.text

/-- A binder of a type variable. -/
def tyBinder (a : TyName) (k : Kind) : String :=
  if style.kinds then "(" ++ style.tyName a ++ " :: " ++ k.doc.text ++ ")" else style.tyName a

end PrettyStyle

def Ty.doc (style : PrettyStyle) : Ty → Doc
  | .var a => .atom (style.tyName a)
  | .arrow argument result => .arrow (argument.doc style) (result.doc style)
  | .all a kind body => .binder ("all " ++ style.tyBinder a kind ++ ". ") (body.doc style)
  | .lam a kind body => .binder ("\\" ++ style.tyBinder a kind ++ " -> ") (body.doc style)
  | .app function argument => .juxtaposed (function.doc style) (argument.doc style)
  | .builtin b => .atom b.text

def Term.doc (style : PrettyStyle) : Term → Doc
  | .var x => .atom (style.name x)
  | .lam x type body =>
    .binder ("\\(" ++ style.name x ++ " : " ++ (type.doc style).text ++ ") -> ") (body.doc style)
  | .app function argument => .juxtaposed (function.doc style) (argument.doc style)
  | .tyLam a kind body => .binder ("/\\" ++ style.tyBinder a kind ++ " -> ") (body.doc style)
  | .inst term type =>
    ⟨(term.doc style).placed Doc.juxtaposedLevel ++ " " ++ braced (type.doc style).text,
      Doc.juxtaposedLevel⟩
  | .const l => .atom l.text
  | .error type => ⟨"error " ++ braced (type.doc style).text, Doc.juxtaposedLevel⟩

def UTerm.doc (style : PrettyStyle) : UTerm → Doc
  | .var x => .atom (style.name x)
  | .lam x body => .binder ("\\" ++ style.name x ++ " -> ") (body.doc style)
  | .app function argument => .juxtaposed (function.doc style) (argument.doc style)
  | .delay body => .keyword "delay" (body.doc style)
  | .force term => .keyword "force" (term.doc style)
  | .const l => .atom l.text
  | .error => .atom "error"

/-! ## Texts -/

def Kind.pretty (k : Kind) : String := k.doc.text

def Ty.pretty (t : Ty) (style : PrettyStyle) : String := (t.doc style).text

def Term.pretty (t : Term) (style : PrettyStyle) : String := (t.doc style).text

def UTerm.pretty (t : UTerm) (style : PrettyStyle) : String := (t.doc style).text

end FomegaLab
