-- Scalars without quotes of YAML texts: their text, and what it stands for.
import FomegaLab.Config.Data
import FomegaLab.Config.Document.Yaml.Cursor
import FomegaLab.Config.ReadFault

namespace FomegaLab.Yaml

open Numeral

/-! ## Text -/

/-- Characters that end a plain scalar inside of a flow collection. -/
def isFlowMark (c : Char) : Bool := [',', '?', '[', ']', '\x7b', '\x7d'].contains c

/-- A colon separates a key from its value before a gap. Inside of a flow collection
some marks are as good as a gap. -/
def colonEnds (flow : Bool) (cs : List Char) : Bool :=
  atGap cs || (flow && (cs.take 1).any fun c => [',', '[', ']', '\x7b', '\x7d'].contains c)

/-- How many characters of a plain scalar stand at the front without a gap. -/
def plainRun (flow : Bool) : List Char → Nat
  | [] => 0
  | c :: cs =>
    if isSpace c || isBreak c || (c == ':' && colonEnds flow cs) || (flow && isFlowMark c) then 0
    else plainRun flow cs + 1

/-- What separates two parts of a plain scalar: the text that stands for it, the place
behind it, and whether a line ends in it. A scalar does not go on behind an empty gap. -/
structure Gap where
  text : List Char
  next : Cursor
  isBroken : Bool

/-- The empty lines from here on. Nothing goes on where documents are separated. -/
def linesGap (first : Char) : (fuel : Nat) → (breaks : List Char) → Cursor → Gap
  | 0, _, p => ⟨[], p, true⟩
  | fuel + 1, breaks, p =>
    if p.atSeparator then ⟨[], p, true⟩
    else
      let p := p.skipWhile (· == ' ')
      match p.lineBreak? with
      | none => ⟨folded first breaks, p, true⟩
      | some (c, p) => linesGap first fuel (breaks ++ [c]) p

/-- The gap from here on. -/
def gap (p : Cursor) : Gap :=
  let (blanks, p) := p.span (· == ' ')
  match p.lineBreak? with
  | none => ⟨blanks, p, false⟩
  | some (c, p) => linesGap c (p.rest.length + 1) [] p

/-- A scalar without quotes, the place behind it and the gap that follows, and whether
a line ends in that gap. -/
structure PlainScalar where
  text : List Char
  next : Cursor
  isBroken : Bool

/-- The rest of a plain scalar from here on. It goes on behind a gap if no comment
follows, and if the next line belongs to the same block. -/
def plainRest (flow : Bool) (indent : Int) : (fuel : Nat) → Cursor → PlainScalar
  | 0, p => ⟨[], p, false⟩
  | fuel + 1, p =>
    let count := plainRun flow p.rest
    let part := p.rest.take count
    let g := gap (p.skip count)
    let ends := g.text.isEmpty || g.next.rest.head? == some '#'
      || (!flow && g.next.column ≤ indent) || plainRun flow g.next.rest == 0
    if ends then ⟨part, g.next, g.isBroken⟩
    else
      let r := plainRest flow indent fuel g.next
      ⟨part ++ g.text ++ r.text, r.next, r.isBroken⟩

/-- The plain scalar that starts here, inside of a block with an indentation. -/
def plain (flow : Bool) (indent : Int) (p : Cursor) : PlainScalar :=
  plainRest flow indent (p.rest.length + 1) p

/-! ## Meaning -/

def dropUnderscores (cs : List Char) : List Char := cs.filter (· != '_')

/-- Digits and underscores. -/
def isRun (base : Nat) (cs : List Char) : Bool := cs.all fun c => isDigit base c || c == '_'

/-- Digits and underscores with a decimal digit in front. -/
def isDecimalRun (cs : List Char) : Bool :=
  match cs with
  | [] => false
  | c :: cs => c.isDigit && isRun 10 cs

/-- A part of a clock time: one digit, or two below sixty. -/
def isSixtieth (cs : List Char) : Bool :=
  match cs with
  | [c] => c.isDigit
  | [c, d] => '0' ≤ c && c ≤ '5' && d.isDigit
  | _ => false

/-- The parts of a number to the base sixty, if there are several of them. -/
def clock? (cs : List Char) : Option (List (List Char)) :=
  match cs.splitOn ':' with
  | whole :: part :: parts =>
    if isDecimalRun whole && (part :: parts).all isSixtieth then
      some (dropUnderscores whole :: part :: parts)
    else none
  | _ => none

/-- The natural number that its digits write to a base other than ten. Underscores do
not count, and they may be all that there is. -/
def based (base : Nat) (cs : List Char) : Read Nat :=
  match nat? base (dropUnderscores cs) with
  | some n => .ok n
  | none => .error (.noDigits base)

/-- An integer without its sign, if this is the form of one. -/
def natural? (cs : List Char) : Option (Read Nat) :=
  match cs with
  | [] => none
  | ['0'] => some (.ok 0)
  | '0' :: 'b' :: d :: ds => if isRun 2 (d :: ds) then some (based 2 (d :: ds)) else none
  | '0' :: 'x' :: d :: ds => if isRun 16 (d :: ds) then some (based 16 (d :: ds)) else none
  | '0' :: ds => if isRun 8 ds then some (based 8 ('0' :: ds)) else none
  | ds =>
    if isDecimalRun ds then some (Read.natural (dropUnderscores ds))
    else
      (clock? ds).map fun parts => do
        return (← parts.mapM Read.natural).foldl (fun n part => n * 60 + part) 0

/-- The magnitude that digits before and after a point write. -/
def magnitude? (whole fraction : List Char) (exponent : Int) : Option (Option Decimal.Binary) := do
  let mantissa ← nat? 10 (whole ++ fraction)
  return Decimal.ofDecimal mantissa (exponent - fraction.length)

/-- The sum of digits to the base sixty, from the last one on, with a rounding after each
step. -/
def clockSum : (power : Nat) → (sum : Option Decimal.Binary) → List (Option Decimal.Binary) →
    Read (Option Decimal.Binary)
  | _, sum, [] => .ok sum
  | power, sum, d :: ds =>
    match Decimal.nearest power 1 with
    | none => .error .largePower
    | some factor => clockSum (power * 60) (do (← sum).add? (← (← d).mul? factor)) ds

/-- A number with a point and without its sign, if this is the form of one. An exponent
has to have a sign. -/
def pointed? (cs : List Char) : Option (Read (Option Decimal.Binary)) :=
  let whole := cs.takeWhile (· != '.')
  let rest := (cs.dropWhile (· != '.')).drop 1
  let fraction := rest.takeWhile fun c => !isPower c
  let power := rest.dropWhile fun c => !isPower c
  let isSigned :=
    match power with
    | [] => true
    | _ :: c :: _ => c == '+' || c == '-'
    | _ => false
  let digits := dropUnderscores fraction
  if !cs.contains '.' || !isRun 10 fraction || !isSigned then none
  else if isDecimalRun whole || (whole.isEmpty && isDecimalRun fraction) then do
    let exponent ← exponent? power
    let x ← magnitude? (dropUnderscores whole) digits exponent
    return .ok x
  else if power.isEmpty then do
    let parts := (← clock? whole).reverse
    let last ← magnitude? (parts.headD []) digits 0
    let others ← (parts.drop 1).mapM fun part => magnitude? part [] 0
    return clockSum 1 (Decimal.nearest 0 1) (last :: others)
  else none

/-- A number in any of the ways to write one. Without a digit in front of its point it
has no sign. -/
def number? (cs : List Char) : Option (Read Data) :=
  let (negative, body) := sign cs
  match natural? body with
  | some n => some (n.map fun n => .int (signed negative n))
  | none =>
    match String.ofList body with
    | ".inf" | ".Inf" | ".INF" => some (.ok (.float (.infinite negative)))
    | _ =>
      if body.head? == some '.' && body.length != cs.length then none
      else (pointed? body).map fun x => x.map fun x => .float (.ofMagnitude negative x)

/-- The sign under which other mappings are merged into one. -/
def mergeSign : String := "<<"

/-- The sign that names a value by its key only. -/
def valueSign : String := "="

/-- What a plain scalar stands for. Two signs stand for nothing by themselves. -/
def meaning (s : String) : Read Data :=
  if ["", "~", "null", "Null", "NULL"].contains s then .ok .null
  else if ["yes", "Yes", "YES", "true", "True", "TRUE", "on", "On", "ON"].contains s then
    .ok (.bool true)
  else if ["no", "No", "NO", "false", "False", "FALSE", "off", "Off", "OFF"].contains s then
    .ok (.bool false)
  else if [".nan", ".NaN", ".NAN"].contains s then .ok (.float .nan)
  else if s = mergeSign ∨ s = valueSign then Read.malformed
  else
    match number? s.toList with
    | some d => d
    | none => .ok (.text s)

end FomegaLab.Yaml
