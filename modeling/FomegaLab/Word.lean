-- The limits of integers: what counts members and positions is a word of 64 bits, and
-- only so many decimal digits are read or written.

namespace FomegaLab

/-- Signed words are the integers from the negative of this number on and below it. -/
def wordLimit : Nat := 0x8000000000000000

theorem wordLimit_pos : 0 < wordLimit := by decide

/-- Whether an integer is a signed word. -/
def isWord (n : Int) : Bool := -wordLimit ≤ n && n < wordLimit

theorem isWord_natCast (n : Nat) : isWord n = decide (n < wordLimit) := by
  rw [isWord, Bool.eq_iff_iff]
  simp only [Bool.and_eq_true, decide_eq_true_eq]
  omega

/-- Decimal numerals have no more digits than this. -/
def mostDigits : Nat := 4300

/-- Whether an integer has more decimal digits than are written. -/
def isLong (n : Int) : Bool := Nat.pow 10 mostDigits ≤ n.natAbs

/-- What is said of a numeral that is too long, before the advice. -/
def longNumeralText : String :=
  "Exceeds the limit (" ++ toString mostDigits ++ " digits) for integer string conversion"

def longNumeralAdvice : String := "; use sys.set_int_max_str_digits() to increase the limit"

/-- A text with an integer in it, or why there is none. -/
def unlessLong (isLong : Bool) (text : String) : String :=
  if isLong then longNumeralText ++ longNumeralAdvice else text

end FomegaLab
