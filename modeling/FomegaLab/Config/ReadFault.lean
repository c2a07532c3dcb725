-- Why a text cannot be read as a document.
import FomegaLab.Config.Numeral
import FomegaLab.Word

namespace FomegaLab

/-- Why a text cannot be read. Most texts that cannot are against the rules of their
format. A few keep to the rules, and write a number or a character that there is none. -/
inductive ReadFault where
  | malformed
  | noDigits (base : Nat)
  | longNumeral (digits : Nat)
  | noCharacter (code : Nat)
  | largePower
deriving DecidableEq

namespace ReadFault

/-- Code points from here on are beyond the range in which characters are looked for. -/
def codeLimit : Nat := 0x80000000

def message : ReadFault → String
  | malformed => "malformed document"
  | noDigits base => "invalid literal for int() with base " ++ toString base ++ ": ''"
  | longNumeral digits =>
    longNumeralText ++ ": value has " ++ toString digits ++ " digits" ++ longNumeralAdvice
  | noCharacter code =>
    if code < codeLimit then "chr() arg not in range(0x110000)"
    else "Python int too large to convert to C int"
  | largePower => "int too large to convert to float"

/-- Whether a number is beyond the range of the arithmetic that was asked for. -/
def isOverflow : ReadFault → Bool
  | noCharacter code => codeLimit ≤ code
  | largePower => true
  | _ => false

end ReadFault

/-- What comes of reading. -/
abbrev Read (α : Type) := Except ReadFault α

namespace Read

def malformed {α : Type} : Read α := .error .malformed

/-- What is missing is against the rules of the format. -/
def ofOption {α : Type} : Option α → Read α
  | some a => .ok a
  | none => malformed

instance : MonadLift Option Read := ⟨ofOption⟩

/-- The natural number that decimal digits write. -/
def natural (digits : List Char) : Read Nat :=
  if mostDigits < digits.length then .error (.longNumeral digits.length)
  else ofOption (Numeral.nat? 10 digits)

end Read

end FomegaLab
