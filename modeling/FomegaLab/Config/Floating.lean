-- Floating point numbers of 64 bits, given by what they stand for, with their text.
import FomegaLab.Config.Decimal
import FomegaLab.Config.Numeral

namespace FomegaLab

/-- A floating point number. Zero has two signs. -/
inductive Floating where
  | nan
  | infinite (negative : Bool)
  | finite (negative : Bool) (magnitude : Decimal.Binary)
deriving DecidableEq

namespace Floating

/-- A number by its sign and its magnitude. A magnitude that is too large is infinite. -/
def ofMagnitude (negative : Bool) : Option Decimal.Binary → Floating
  | some x => finite negative x
  | none => infinite negative

/-- The integer that a number is equal to, if it has no fraction. -/
def toInt? : Floating → Option Int
  | finite negative x =>
    if 0 ≤ x.exponent then
      some (Numeral.signed negative (x.mantissa * Nat.pow 2 x.exponent.toNat))
    else
      let d := Nat.pow 2 (-x.exponent).toNat
      if x.mantissa % d = 0 then some (Numeral.signed negative (x.mantissa / d)) else none
  | _ => none

/-! ## Text -/

/-- The fewest digits that read back to the number. -/
def text : Floating → String
  | nan => "nan"
  | infinite true => "-inf"
  | infinite false => "inf"
  | finite negative x =>
    let body := Decimal.text x
    String.ofList (if negative then '-' :: body else body)

/-- The number whose digits before and after a point are given, times a power of ten. -/
def ofDigits? (negative : Bool) (whole fraction : List Char) (exponent : Int) :
    Option Floating := do
  let mantissa ← Numeral.nat? 10 (whole ++ fraction)
  return ofMagnitude negative (Decimal.ofDecimal mantissa (exponent - fraction.length))

/-- Reads the text of a number. -/
def ofText? (s : String) : Option Floating :=
  match s with
  | "nan" => some nan
  | "inf" => some (infinite false)
  | "-inf" => some (infinite true)
  | s => do
    let (negative, body) := Numeral.sign s.toList
    let (whole, rest) := Numeral.digits body
    let (fraction, rest) :=
      match rest with
      | '.' :: rest => Numeral.digits rest
      | rest => ([], rest)
    ofDigits? negative whole fraction (← Numeral.exponent? rest)

end Floating

end FomegaLab
