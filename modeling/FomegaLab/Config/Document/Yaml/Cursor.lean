-- Places in a YAML text, and the characters that its form depends on.

namespace FomegaLab.Yaml

/-! ## Characters -/

/-- Whether a character may stand in a text at all. -/
def isPrintable (c : Char) : Bool :=
  let n := c.toNat
  c == '\t' || c == '\n' || c == '\r' || (0x20 ≤ n && n ≤ 0x7e) || n == 0x85
    || (0xa0 ≤ n && n ≤ 0xfffd) || 0x10000 ≤ n

def isBreak (c : Char) : Bool := c == '\n' || c == '\u0085' || c == '\u2028' || c == '\u2029'

def isSpace (c : Char) : Bool := c == ' ' || c == '\t'

/-- Whether what is between words goes on here: the end, a blank or a line break. -/
def atGap : List Char → Bool
  | [] => true
  | c :: _ => isSpace c || isBreak c

/-- Whether a line ends here. -/
def atBreak : List Char → Bool
  | [] => true
  | c :: _ => isBreak c

/-- A mark that is at no place of a line. -/
def byteOrderMark : Char := '\ufeff'

/-! ## Places -/

/-- A place in a text: what follows, how many characters are before it, how many lines,
and how many characters of its own line. -/
structure Cursor where
  rest : List Char
  index : Nat
  line : Nat
  column : Nat

namespace Cursor

/-- The place before a text. A byte order mark at the front is passed over. -/
def start : List Char → Cursor
  | c :: cs => if c = byteOrderMark then ⟨cs, 1, 0, 0⟩ else ⟨c :: cs, 0, 0, 0⟩
  | [] => ⟨[], 0, 0, 0⟩

/-- The place behind a character that is not the last one. -/
def pass (p : Cursor) (c : Char) (rest : List Char) : Cursor :=
  if isBreak c then ⟨rest, p.index + 1, p.line + 1, 0⟩
  else if c = byteOrderMark then ⟨rest, p.index + 1, p.line, p.column⟩
  else ⟨rest, p.index + 1, p.line, p.column + 1⟩

/-- The place behind some characters, or the end. -/
def skip : (count : Nat) → Cursor → Cursor
  | 0, p => p
  | count + 1, p =>
    match p.rest with
    | [] => p
    | c :: cs => skip count (p.pass c cs)

/-- The characters that satisfy a condition, and the place behind them. -/
def span (p : Cursor) (f : Char → Bool) : List Char × Cursor :=
  let cs := p.rest.takeWhile f
  (cs, p.skip cs.length)

/-- The place behind the characters that satisfy a condition. -/
def skipWhile (p : Cursor) (f : Char → Bool) : Cursor := (p.span f).2

/-- Whether three characters that separate documents stand here: dashes or points. -/
def isSeparator (p : Cursor) (c : Char) : Bool :=
  p.rest.take 3 == [c, c, c] && atGap (p.rest.drop 3)

/-- Whether documents are separated here. -/
def atSeparator (p : Cursor) : Bool := p.isSeparator '-' || p.isSeparator '.'

/-- Passes over a comment, if there is one here. -/
def skipComment (p : Cursor) : Cursor :=
  match p.rest with
  | '#' :: _ => p.skipWhile fun c => !isBreak c
  | _ => p

/-- The break at the end of a line: a line feed, unless it is one of the two separators
of its own. -/
def breakText (c : Char) : Char := if c == '\u0085' then '\n' else c

/-- Passes over a line break, if there is one here. -/
def lineBreak? (p : Cursor) : Option (Char × Cursor) :=
  match p.rest with
  | c :: cs => if isBreak c then some (breakText c, p.pass c cs) else none
  | [] => none

end Cursor

/-- What two lines are joined by. One line feed is a blank, of several the first one is
dropped. -/
def folded (first : Char) (breaks : List Char) : List Char :=
  if first != '\n' then first :: breaks
  else if breaks.isEmpty then [' ']
  else breaks

end FomegaLab.Yaml
