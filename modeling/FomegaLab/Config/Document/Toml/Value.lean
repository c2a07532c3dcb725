-- Values of TOML documents: numbers, arrays and inline tables. Dates are not read.
import FomegaLab.Config.Document.Toml.Table
import FomegaLab.Config.Document.Toml.Text
import FomegaLab.Config.ReadFault

namespace FomegaLab.Toml

open Numeral

/-! ## Numbers -/

/-- Digits at the front, without the single underscores between them, and what follows. -/
def digitRun (base : Nat) : List Char → List Char × List Char
  | [] => ([], [])
  | [c] => if isDigit base c then ([c], []) else ([], [c])
  | c :: d :: cs =>
    if isDigit base c then
      let r := digitRun base (d :: cs)
      (c :: r.1, r.2)
    else if c == '_' && isDigit base d then
      let r := digitRun base cs
      (d :: r.1, r.2)
    else ([], c :: d :: cs)

/-- A run of digits that does not start with an underscore. -/
def digits (base : Nat) (cs : List Char) : List Char × List Char :=
  match cs with
  | '_' :: _ => ([], cs)
  | cs => digitRun base cs

/-- An integer after the letter that names its base. -/
def based (base : Nat) (cs : List Char) : Read (Data × List Char) := do
  let (ds, rest) := digits base cs
  return (.int (← nat? base ds), rest)

/-- A decimal number: an integer, unless it has a fraction or an exponent. -/
def decimal (cs : List Char) : Read (Data × List Char) := do
  let (negative, cs) := sign cs
  let (whole, rest) :=
    match cs with
    | '0' :: rest => (['0'], rest)
    | cs => digits 10 cs
  if whole.isEmpty then Read.malformed
  else
    let (fraction, rest) :=
      match rest with
      | '.' :: tail =>
        let (ds, after) := digits 10 tail
        if ds.isEmpty then ([], rest) else (ds, after)
      | rest => ([], rest)
    let (power, rest) :=
      match rest with
      | c :: tail =>
        if isPower c then
          let (down, tail) := sign tail
          let (ds, after) := digits 10 tail
          match nat? 10 ds with
          | some n => (some (signed down n), after)
          | none => (none, rest)
        else (none, rest)
      | [] => (none, rest)
    if fraction.isEmpty ∧ power.isNone then
      return (.int (signed negative (← Read.natural whole)), rest)
    else return (.float (← Floating.ofDigits? negative whole fraction (power.getD 0)), rest)

/-- A value that is a word or a number. -/
def word (cs : List Char) : Read (Data × List Char) :=
  match cs with
  | 't' :: 'r' :: 'u' :: 'e' :: rest => .ok (.bool true, rest)
  | 'f' :: 'a' :: 'l' :: 's' :: 'e' :: rest => .ok (.bool false, rest)
  | '0' :: 'x' :: rest => based 16 rest
  | '0' :: 'b' :: rest => based 2 rest
  | '0' :: 'o' :: rest => based 8 rest
  | cs =>
    let (negative, body) := sign cs
    match body with
    | 'i' :: 'n' :: 'f' :: rest => .ok (.float (.infinite negative), rest)
    | 'n' :: 'a' :: 'n' :: rest => .ok (.float .nan, rest)
    | _ => decimal cs

/-! ## Arrays and inline tables -/

mutual
/-- A value, and what follows. -/
def value : (fuel : Nat) → List Char → Read (Data × List Char)
  | 0, _ => Read.malformed
  | fuel + 1, cs =>
    match cs with
    | '[' :: rest => do
      let (items, rest) ← items fuel (← skipLines? (rest.length + 1) rest)
      return (.list items, rest)
    | '\x7b' :: rest =>
      match skipSpace rest with
      | '\x7d' :: rest => .ok (.map [], rest)
      | rest => do
        let (t, rest) ← inlineTable fuel [] rest
        return (.map t.toData, rest)
    | '"' :: _ | '\'' :: _ => do
      let (s, rest) ← anyString? cs
      return (.text s, rest)
    | cs => word cs

/-- The items of an array, up to the closing bracket. -/
def items : (fuel : Nat) → List Char → Read (List Data × List Char)
  | 0, _ => Read.malformed
  | _ + 1, ']' :: rest => .ok ([], rest)
  | fuel + 1, cs => do
    let (item, rest) ← value fuel cs
    match ← skipLines? (rest.length + 1) rest with
    | ',' :: rest =>
      let (items, rest) ← items fuel (← skipLines? (rest.length + 1) rest)
      return (item :: items, rest)
    | ']' :: rest => return ([item], rest)
    | _ => Read.malformed

/-- Adds the settings of an inline table, up to the closing brace. -/
def inlineTable : (fuel : Nat) → Table → List Char → Read (Table × List Char)
  | 0, _, _ => Read.malformed
  | fuel + 1, t, cs => do
    let (key, rest) ← key? (cs.length + 1) cs
    match rest with
    | '=' :: rest =>
      let (d, rest) ← value fuel (skipSpace rest)
      let t ← t.set? 0 d key
      match skipSpace rest with
      | ',' :: rest => inlineTable fuel t (skipSpace rest)
      | '\x7d' :: rest => return (t, rest)
      | _ => Read.malformed
    | _ => Read.malformed
end

end FomegaLab.Toml
