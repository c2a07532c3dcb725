-- Keys, strings and comments of TOML documents.
import FomegaLab.Config.Numeral

namespace FomegaLab.Toml

open Numeral

/-! ## Blanks and comments -/

def isSpace (c : Char) : Bool := c == ' ' || c == '\t'

def isBlank (c : Char) : Bool := isSpace c || c == '\n'

def skipSpace (cs : List Char) : List Char := cs.dropWhile isSpace

/-- Control characters stand nowhere in a document, line feeds between lines apart. -/
def isControl (c : Char) : Bool := (c.toNat < 0x20 && c != '\t') || c.toNat == 0x7f

/-- What follows a comment, if there is one at the front. -/
def skipComment? (cs : List Char) : Option (List Char) :=
  match cs with
  | '#' :: rest =>
    if (rest.takeWhile (· != '\n')).any isControl then none else some (rest.dropWhile (· != '\n'))
  | cs => some cs

/-- What follows blanks, line breaks and comments. -/
def skipLines? : (fuel : Nat) → List Char → Option (List Char)
  | 0, _ => none
  | fuel + 1, cs =>
    match cs.dropWhile isBlank with
    | '#' :: rest => do skipLines? fuel (← skipComment? ('#' :: rest))
    | rest => some rest

/-! ## Strings -/

/-- The rest of a literal string after its opening quote. -/
def literal? : List Char → Option (List Char × List Char)
  | [] => none
  | '\'' :: rest => some ([], rest)
  | c :: rest => if isControl c then none else (literal? rest).map fun r => (c :: r.1, r.2)

/-- The rest of a literal string of several lines, up to its three closing quotes. -/
def literalLines? : List Char → Option (List Char × List Char)
  | [] => none
  | '\'' :: '\'' :: '\'' :: rest => some ([], rest)
  | c :: rest =>
    if isControl c && c != '\n' then none
    else (literalLines? rest).map fun r => (c :: r.1, r.2)

/-- The character that an escape of one letter stands for. -/
def escape? (c : Char) : Option Char :=
  [('b', '\x08'), ('t', '\t'), ('n', '\n'), ('f', '\x0c'), ('r', '\r'), ('"', '"'),
    ('\\', '\\')].lookup c

/-- The rest of a basic string after its opening quotes. One of several lines may hold
quotes and line breaks, and a backslash at the end of a line hides the blanks that
follow. -/
def basic? (lines : Bool) : (fuel : Nat) → List Char → Option (List Char × List Char)
  | 0, _ => none
  | fuel + 1, cs =>
    let more (c : Char) (rest : List Char) : Option (List Char × List Char) := do
      let (s, rest) ← basic? lines fuel rest
      return (c :: s, rest)
    let coded (width : Nat) (rest : List Char) : Option (List Char × List Char) := do
      let (n, rest) ← codePoint? width rest
      more (← char? n) rest
    match cs with
    | [] => none
    | '"' :: rest =>
      if lines then
        match rest with
        | '"' :: '"' :: rest => some ([], rest)
        | rest => more '"' rest
      else some ([], rest)
    | '\\' :: 'u' :: rest => coded 4 rest
    | '\\' :: 'U' :: rest => coded 8 rest
    | '\\' :: c :: rest =>
      if lines && isBlank c then
        match skipSpace (c :: rest) with
        | '\n' :: rest => basic? lines fuel (rest.dropWhile isBlank)
        | _ => none
      else do more (← escape? c) rest
    | c :: rest => if isControl c && !(lines && c == '\n') then none else more c rest

/-- A line break right after the opening quotes is no part of a string. -/
def afterOpening : List Char → List Char
  | '\n' :: cs => cs
  | cs => cs

/-- Up to two quotes in front of the closing ones are part of a string. -/
def closing (quote : Char) (s rest : List Char) : List Char × List Char :=
  let extra := (rest.take 2).takeWhile (· == quote)
  (s ++ extra, rest.drop extra.length)

/-- A string on one line at the front, and what follows. -/
def string? (cs : List Char) : Option (String × List Char) := do
  let (s, rest) ←
    match cs with
    | '"' :: rest => basic? false (rest.length + 1) rest
    | '\'' :: rest => literal? rest
    | _ => none
  return (String.ofList s, rest)

/-- A string of any kind at the front, and what follows. -/
def anyString? (cs : List Char) : Option (String × List Char) :=
  match cs with
  | '"' :: '"' :: '"' :: rest => do
    let (s, rest) ← basic? true (rest.length + 1) (afterOpening rest)
    let (s, rest) := closing '"' s rest
    return (String.ofList s, rest)
  | '\'' :: '\'' :: '\'' :: rest => do
    let (s, rest) ← literalLines? (afterOpening rest)
    let (s, rest) := closing '\'' s rest
    return (String.ofList s, rest)
  | cs => string? cs

/-! ## Keys -/

def isBare (c : Char) : Bool := c.isAlphanum || c == '_' || c == '-'

/-- One part of a key at the front, and what follows the blanks behind it. -/
def keyPart? (cs : List Char) : Option (String × List Char) :=
  match cs.takeWhile isBare with
  | [] => (string? cs).map fun r => (r.1, skipSpace r.2)
  | bare => some (String.ofList bare, skipSpace (cs.dropWhile isBare))

/-- A key at the front: its parts, which are separated by points, and what follows. -/
def key? : (fuel : Nat) → List Char → Option (List String × List Char)
  | 0, _ => none
  | fuel + 1, cs => do
    let (part, rest) ← keyPart? cs
    match rest with
    | '.' :: rest =>
      let (parts, rest) ← key? fuel (skipSpace rest)
      return (part :: parts, rest)
    | rest => return ([part], rest)

end FomegaLab.Toml
