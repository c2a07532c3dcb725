-- Reading JSON documents.
import FomegaLab.Config.Data
import FomegaLab.Config.ReadFault

namespace FomegaLab.Json

open Numeral

def isBlank (c : Char) : Bool := c = ' ' || c = '\t' || c = '\n' || c = '\r'

def skipBlank (cs : List Char) : List Char := cs.dropWhile isBlank

/-- A value that is written as a word, after the first letter of the word. -/
def keyword (rest : String) (d : Data) (cs : List Char) : Read (Data × List Char) :=
  if rest.toList.isPrefixOf cs then .ok (d, cs.drop rest.length) else Read.malformed

/-- The rest of a string after its opening quote. -/
def string? : (fuel : Nat) → List Char → Option (List Char × List Char)
  | 0, _ => none
  | fuel + 1, cs =>
    let more (c : Char) (rest : List Char) : Option (List Char × List Char) := do
      let (s, rest) ← string? fuel rest
      return (c :: s, rest)
    match cs with
    | [] => none
    | '"' :: rest => some ([], rest)
    | '\\' :: 'u' :: rest => do
      let (c, rest) ← escaped? rest
      more c rest
    | '\\' :: c :: rest => do
      let c ← [('"', '"'), ('\\', '\\'), ('/', '/'), ('b', '\x08'), ('f', '\x0c'), ('n', '\n'),
        ('r', '\r'), ('t', '\t')].lookup c
      more c rest
    | c :: rest => if c.toNat < 0x20 then none else more c rest

/-- A number without its sign: an integer, unless it has a fraction or an exponent. -/
def number (negative : Bool) (cs : List Char) : Read (Data × List Char) := do
  let (whole, rest) :=
    match cs with
    | '0' :: rest => (['0'], rest)
    | cs => digits cs
  if whole.isEmpty then Read.malformed
  else
    let (fraction, rest) :=
      match rest with
      | '.' :: tail =>
        let (fraction, after) := digits tail
        if fraction.isEmpty then ([], rest) else (fraction, after)
      | rest => ([], rest)
    let (power, rest) :=
      match rest with
      | c :: tail =>
        if isPower c then
          let (down, tail) := sign tail
          let (ds, after) := digits tail
          match nat? 10 ds with
          | some n => (some (signed down n), after)
          | none => (none, rest)
        else (none, rest)
      | [] => (none, rest)
    if fraction.isEmpty ∧ power.isNone then
      return (.int (signed negative (← Read.natural whole)), rest)
    else return (.float (← Floating.ofDigits? negative whole fraction (power.getD 0)), rest)

mutual
/-- A value, and what follows. -/
def value : (fuel : Nat) → List Char → Read (Data × List Char)
  | 0, _ => Read.malformed
  | fuel + 1, cs =>
    match skipBlank cs with
    | '"' :: rest => do
      let (s, rest) ← string? (rest.length + 1) rest
      return (.text (String.ofList s), rest)
    | '[' :: rest =>
      match skipBlank rest with
      | ']' :: rest => .ok (.list [], rest)
      | rest => do
        let (items, rest) ← items fuel rest
        return (.list items, rest)
    | '\x7b' :: rest =>
      match skipBlank rest with
      | '\x7d' :: rest => .ok (.map [], rest)
      | rest => do
        let (entries, rest) ← entries fuel rest
        return (.map (Mapping.ofEntries Data.sameKey entries), rest)
    | 'n' :: rest => keyword "ull" .null rest
    | 't' :: rest => keyword "rue" (.bool true) rest
    | 'f' :: rest => keyword "alse" (.bool false) rest
    | 'N' :: rest => keyword "aN" (.float .nan) rest
    | 'I' :: rest => keyword "nfinity" (.float (.infinite false)) rest
    | '-' :: 'I' :: rest => keyword "nfinity" (.float (.infinite true)) rest
    | '-' :: rest => number true rest
    | rest => number false rest

/-- The items of a list, up to the closing bracket. -/
def items : (fuel : Nat) → List Char → Read (List Data × List Char)
  | 0, _ => Read.malformed
  | fuel + 1, cs => do
    let (item, rest) ← value fuel cs
    match skipBlank rest with
    | ',' :: rest =>
      let (items, rest) ← items fuel rest
      return (item :: items, rest)
    | ']' :: rest => return ([item], rest)
    | _ => Read.malformed

/-- The entries of a mapping, up to the closing brace. -/
def entries : (fuel : Nat) → List Char → Read (List (Data × Data) × List Char)
  | 0, _ => Read.malformed
  | fuel + 1, cs => do
    match skipBlank cs with
    | '"' :: rest =>
      let (key, rest) ← string? (rest.length + 1) rest
      match skipBlank rest with
      | ':' :: rest =>
        let (item, rest) ← value fuel rest
        let entry := (Data.text (String.ofList key), item)
        match skipBlank rest with
        | ',' :: rest =>
          let (entries, rest) ← entries fuel rest
          return (entry :: entries, rest)
        | '\x7d' :: rest => return ([entry], rest)
        | _ => Read.malformed
      | _ => Read.malformed
    | _ => Read.malformed
end

/-- The value of a whole document. -/
def document (cs : List Char) : Read Data := do
  let (d, rest) ← value (2 * cs.length + 1) cs
  if (skipBlank rest).isEmpty then return d else Read.malformed

end FomegaLab.Json
