-- Quoted scalars of YAML texts. They may go over several lines.
import FomegaLab.Config.Document.Yaml.Cursor
import FomegaLab.Config.ReadFault

namespace FomegaLab.Yaml

open Numeral

/-- The character that an escape of one letter stands for. -/
def escape? (c : Char) : Option Char :=
  [('0', '\x00'), ('a', '\x07'), ('b', '\x08'), ('t', '\t'), ('\t', '\t'), ('n', '\n'),
    ('v', '\x0b'), ('f', '\x0c'), ('r', '\r'), ('e', '\x1b'), (' ', ' '), ('"', '"'), ('/', '/'),
    ('\\', '\\'), ('N', '\u0085'), ('_', '\u00a0'), ('L', '\u2028'), ('P', '\u2029')].lookup c

/-- The character of an escape that writes its code point, and what follows. A code
point beyond all planes is a fault of its own. -/
def codedEscape (letter : Char) (cs : List Char) : Read (Char × List Char) :=
  match letter with
  | 'x' => do
    let (n, rest) ← codePoint? 2 cs
    return (← char? n, rest)
  | 'u' => do
    let r ← escaped? cs
    return r
  | 'U' => do
    let (n, rest) ← codePoint? 8 cs
    if 0x110000 ≤ n then throw (.noCharacter n)
    else return (← char? n, rest)
  | _ => Read.malformed

/-- The breaks of the empty lines from here on, and the place of the first text. -/
def emptyLines : (fuel : Nat) → Cursor → Read (List Char × Cursor)
  | 0, _ => Read.malformed
  | fuel + 1, p =>
    if p.atSeparator then Read.malformed
    else do
      let p := p.skipWhile isSpace
      match p.lineBreak? with
      | none => return ([], p)
      | some (c, p) =>
        let (breaks, p) ← emptyLines fuel p
        return (c :: breaks, p)

/-- The rest of a scalar after its opening quote, in double or in single quotes. Blanks
at the end and at the start of a line are dropped. -/
def quotedRest (double : Bool) : (fuel : Nat) → Cursor → Read (List Char × Cursor)
  | 0, _ => Read.malformed
  | fuel + 1, p => do
    let more (s : List Char) (p : Cursor) : Read (List Char × Cursor) := do
      let (t, p) ← quotedRest double fuel p
      return (s ++ t, p)
    match p.rest with
    | [] => Read.malformed
    | '\\' :: cs =>
      if double then
        match cs with
        | [] => Read.malformed
        | c :: _ =>
          let after := p.skip 2
          match escape? c, (p.skip 1).lineBreak? with
          | some c, _ => more [c] after
          | none, some (_, next) => do
            let (breaks, next) ← emptyLines (next.rest.length + 1) next
            more breaks next
          | none, none => do
            let (c, rest) ← codedEscape c after.rest
            more [c] (after.skip (after.rest.length - rest.length))
      else more ['\\'] (p.skip 1)
    | '\'' :: cs =>
      if double then more ['\''] (p.skip 1)
      else
        match cs with
        | '\'' :: _ => more ['\''] (p.skip 2)
        | _ => return ([], p.skip 1)
    | '"' :: _ => if double then return ([], p.skip 1) else more ['"'] (p.skip 1)
    | c :: _ =>
      if isSpace c || isBreak c then
        let (blanks, p) := p.span isSpace
        match p.lineBreak? with
        | none => more blanks p
        | some (c, p) => do
          let (breaks, p) ← emptyLines (p.rest.length + 1) p
          more (folded c breaks) p
      else more [c] (p.skip 1)

/-- The text of a quoted scalar that starts here, and the place behind it. -/
def quoted (double : Bool) (p : Cursor) : Read (String × Cursor) := do
  let (s, p) ← quotedRest double (p.rest.length + 1) (p.skip 1)
  return (String.ofList s, p)

end FomegaLab.Yaml
