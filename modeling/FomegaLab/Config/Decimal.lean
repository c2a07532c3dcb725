-- Decimal numbers with a fraction, as 64-bit floating point keeps them: a numeral
-- is read as the nearest number of that precision, and that number is written
-- with the fewest digits that read back to it.

namespace FomegaLab.Decimal

/-- The number `mantissa * 2 ^ exponent`. -/
structure Binary where
  mantissa : Nat
  exponent : Int
deriving DecidableEq

/-- A number as a quotient of integers. -/
def Binary.toQuotient (x : Binary) : Nat × Nat :=
  if 0 ≤ x.exponent then (x.mantissa * Nat.pow 2 x.exponent.toNat, 1)
  else (x.mantissa, Nat.pow 2 (-x.exponent).toNat)

/-- A quotient rounded to the nearest integer, a tie to the even one. -/
def roundDiv (num den : Nat) : Nat :=
  let q := num / den
  let r := num % den
  if 2 * r < den then q
  else if den < 2 * r then q + 1
  else if q % 2 = 0 then q
  else q + 1

/-- The quotient `num / den` scaled down by `2 ^ exponent`, as a new quotient. -/
def scaled (num den : Nat) (exponent : Int) : Nat × Nat :=
  if 0 ≤ exponent then (num, den * Nat.pow 2 exponent.toNat)
  else (num * Nat.pow 2 (-exponent).toNat, den)

def precision : Nat := 53
def leastExponent : Int := -1074
def greatestExponent : Int := 971

/-- The nearest number of 53 binary digits to `num / den`, a tie to an even
mantissa. Nothing if it is too large. -/
def nearest (num den : Nat) : Option Binary :=
  if num = 0 then some ⟨0, leastExponent⟩
  else
    let guess : Int := (num.log2 : Int) - den.log2 - precision
    -- The quotient lies between `2 ^ (guess + 52)` and `2 ^ (guess + 54)`.
    let fits (e : Int) : Bool :=
      let (n, d) := scaled num den e
      n < d * Nat.pow 2 precision
    let exponent := max leastExponent (if fits guess then guess else guess + 1)
    let (n, d) := scaled num den exponent
    let mantissa := roundDiv n d
    let rounded : Binary :=
      if mantissa = Nat.pow 2 precision then ⟨mantissa / 2, exponent + 1⟩ else ⟨mantissa, exponent⟩
    if greatestExponent < rounded.exponent then none else some rounded

/-- The sum of two numbers, rounded. -/
def Binary.add? (x y : Binary) : Option Binary :=
  let (m, c) := x.toQuotient
  let (n, d) := y.toQuotient
  nearest (m * d + n * c) (c * d)

/-- The product of two numbers, rounded. -/
def Binary.mul? (x y : Binary) : Option Binary :=
  let (m, c) := x.toQuotient
  let (n, d) := y.toQuotient
  nearest (m * n) (c * d)

/-- The quotient `mantissa * 10 ^ exponent`. -/
def quotient (mantissa : Nat) (exponent : Int) : Nat × Nat :=
  if 0 ≤ exponent then (mantissa * Nat.pow 10 exponent.toNat, 1)
  else (mantissa, Nat.pow 10 (-exponent).toNat)

/-- The number nearest to `mantissa * 10 ^ exponent`. Numbers that are far too large
or far too small are recognized by their length. Nothing if it is too large. -/
def ofDecimal (mantissa : Nat) (exponent : Int) : Option Binary :=
  let size := exponent + (Nat.toDigits 10 mantissa).length
  if mantissa = 0 ∨ size < -400 then some ⟨0, leastExponent⟩
  else if 400 < size then none
  else
    let (n, d) := quotient mantissa exponent
    nearest n d

/-- Whether the decimal `digits * 10 ^ exponent` reads back as `x`. -/
def readsBack (x : Binary) (digits : Nat) (exponent : Int) : Bool :=
  let (n, d) := quotient digits exponent
  nearest n d == some x

/-- The distance of `digits * 10 ^ exponent` from `n / d`, scaled by a factor that
does not depend on the digits. -/
def distance (n d : Nat) (exponent : Int) (digits : Nat) : Nat :=
  let (p, q) := quotient digits exponent
  Int.natAbs ((p * d : Nat) - (n * q : Nat) : Int)

/-- The exponent of the leading decimal digit of a positive quotient, looked for
from `e` downwards. -/
def leadingExponent (n d : Nat) : (fuel : Nat) → (e : Int) → Int
  | 0, e => e
  | fuel + 1, e =>
    let (p, q) := quotient 1 e
    if p * d ≤ n * q then e else leadingExponent n d fuel (e - 1)

/-- The first count of digits, from `count` on, at which a neighbour of the
number reads back: its digits and the exponent of the last one. -/
def shortestFrom (x : Binary) (n d : Nat) (lead : Int) : (fuel : Nat) → (count : Nat) → Nat × Int
  | 0, _ => (x.mantissa, x.exponent)
  | fuel + 1, count =>
    let exponent := lead - count + 1
    let (p, q) := quotient 1 exponent
    let low := n * q / (d * p)
    let high := low + 1
    let lowReads := low ≠ 0 ∧ readsBack x low exponent
    let highReads := readsBack x high exponent
    if lowReads ∧ highReads then
      let l := distance n d exponent low
      let h := distance n d exponent high
      if l < h ∨ (l = h ∧ low % 2 = 0) then (low, exponent) else (high, exponent)
    else if lowReads then (low, exponent)
    else if highReads then (high, exponent)
    else shortestFrom x n d lead fuel (count + 1)

/-- The fewest digits that read back to a positive number. -/
def shortest (x : Binary) : Nat × Int :=
  let (n, d) := x.toQuotient
  let lead := leadingExponent n d 700 (((n.log2 : Int) - d.log2) * 1234 / 4096 + 2)
  shortestFrom x n d lead 18 1

/-- Digits without the zeros at their end, with the exponent of the last one. -/
def trimmed : (fuel : Nat) → Nat → Int → Nat × Int
  | 0, digits, exponent => (digits, exponent)
  | fuel + 1, digits, exponent =>
    if digits ≠ 0 ∧ digits % 10 = 0 then trimmed fuel (digits / 10) (exponent + 1)
    else (digits, exponent)

/-- A positive decimal laid out: from `0.0001` up to `10 ^ 16` in places, with at
least one place after the point, and otherwise with an exponent of at least two
digits. -/
def layout (digits : Nat) (exponent : Int) : List Char :=
  let ds := Nat.toDigits 10 digits
  let lead : Int := exponent + ds.length - 1
  if -4 ≤ lead ∧ lead < 16 then
    if 0 ≤ exponent then ds ++ List.replicate exponent.toNat '0' ++ ['.', '0']
    else if 0 ≤ lead then
      let whole := (lead + 1).toNat
      ds.take whole ++ '.' :: ds.drop whole
    else '0' :: '.' :: List.replicate (-lead - 1).toNat '0' ++ ds
  else
    let fraction := if ds.length = 1 then [] else '.' :: ds.drop 1
    let power := Nat.toDigits 10 lead.natAbs
    ds.take 1 ++ fraction ++ ['e', if lead < 0 then '-' else '+']
      ++ List.replicate (2 - power.length) '0' ++ power

/-- The text of a number that is not negative. -/
def text (x : Binary) : List Char :=
  if x.mantissa = 0 then ['0', '.', '0']
  else
    let (digits, exponent) := shortest x
    let (digits, exponent) := trimmed 400 digits exponent
    layout digits exponent

end FomegaLab.Decimal
