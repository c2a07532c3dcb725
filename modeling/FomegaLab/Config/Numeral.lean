-- Numerals and code points as they are written in documents.

namespace FomegaLab.Numeral

/-- The value of a digit, up to base 36. -/
def digit? (c : Char) : Option Nat :=
  if '0' ≤ c ∧ c ≤ '9' then some (c.toNat - '0'.toNat)
  else if 'a' ≤ c ∧ c ≤ 'z' then some (c.toNat - 'a'.toNat + 10)
  else if 'A' ≤ c ∧ c ≤ 'Z' then some (c.toNat - 'A'.toNat + 10)
  else none

def isDigit (base : Nat) (c : Char) : Bool :=
  match digit? c with
  | some d => d < base
  | none => false

/-- The natural number that some digits write. There has to be a digit. -/
def nat? (base : Nat) (digits : List Char) : Option Nat :=
  match digits with
  | [] => none
  | digits =>
    if digits.all (isDigit base) then
      some (digits.foldl (fun n c => n * base + (digit? c).getD 0) 0)
    else none

/-- Takes a sign from the front: whether it is a minus, and the rest. -/
def sign : List Char → Bool × List Char
  | '-' :: cs => (true, cs)
  | '+' :: cs => (false, cs)
  | cs => (false, cs)

def signed (negative : Bool) (n : Nat) : Int := if negative then -n else n

/-- The digits at the front, and the rest. -/
def digits (cs : List Char) : List Char × List Char :=
  (cs.takeWhile Char.isDigit, cs.dropWhile Char.isDigit)

def isPower (c : Char) : Bool := c == 'e' || c == 'E'

/-- The exponent that a letter `e` with an optional sign and digits writes. -/
def exponent? : List Char → Option Int
  | [] => some 0
  | c :: cs =>
    if isPower c then do
      let (negative, digits) := sign cs
      return signed negative (← nat? 10 digits)
    else none

/-- The code point that the hexadecimal digits of an escape write, and what follows. -/
def codePoint? (width : Nat) (cs : List Char) : Option (Nat × List Char) := do
  let digits := cs.take width
  if digits.length < width then none
  else return (← nat? 16 digits, cs.drop width)

/-- A character by its code point, if there is one. -/
def char? (n : Nat) : Option Char :=
  if h : n.isValidChar then some (Char.ofNatAux n h) else none

/-- The character of an escape after its `\u`, and what follows. Two escapes in a row
may write the halves of a character beyond the first plane. -/
def escaped? (cs : List Char) : Option (Char × List Char) := do
  let (n, rest) ← codePoint? 4 cs
  if 0xd800 ≤ n ∧ n < 0xdc00 then
    match rest with
    | '\\' :: 'u' :: rest =>
      let (low, rest) ← codePoint? 4 rest
      if 0xdc00 ≤ low ∧ low < 0xe000 then
        return (← char? (0x10000 + (n - 0xd800) * 0x400 + (low - 0xdc00)), rest)
      else none
    | _ => none
  else return (← char? n, rest)

end FomegaLab.Numeral
