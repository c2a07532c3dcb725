-- Words: numerals, names with their uniques, and where a word ends. A numeral is read back to
-- its number, a full name to its text and its unique, and a word that is followed by anything
-- but a letter of a word is read off what it stands in front of.
import FomegaLab.Name
import Mathlib.Data.List.Basic

namespace FomegaLab

/-! ## Numerals -/

theorem toDigits_injective {i j : Nat} (h : Nat.toDigits 10 i = Nat.toDigits 10 j) : i = j := by
  rw [← Nat.ofDigitChars_ten_toDigits (n := i), h, Nat.ofDigitChars_ten_toDigits]

theorem toString_injective {i j : Nat} (h : toString i = toString j) : i = j := by
  rw [Nat.toString_eq_ofList_toDigits, Nat.toString_eq_ofList_toDigits, String.ofList_inj] at h
  exact toDigits_injective h

/-! ## Words -/

/-- The characters of names, keywords and literals, and the star of kinds. -/
def isWordChar (c : Char) : Bool := c.isAlphanum || c == '_' || c == '*'

def IsWord (w : String) : Prop := w.toList ≠ [] ∧ ∀ c ∈ w.toList, isWordChar c = true

instance (w : String) : Decidable (IsWord w) :=
  decidable_of_iff ((!w.toList.isEmpty && w.toList.all isWordChar) = true) (by simp [IsWord])

/-- No word goes on here. -/
def Apart (rest : List Char) : Prop := ∀ c ∈ rest.head?, isWordChar c = false

@[simp] theorem apart_cons {c : Char} {rest : List Char} :
    Apart (c :: rest) ↔ isWordChar c = false := by
  simp [Apart]

/-- A word is read off as far as its characters go. -/
theorem IsWord.eq_of_append_eq {w w' : String} (hw : IsWord w) (hw' : IsWord w')
    {rest rest' : List Char} (hr : Apart rest) (hr' : Apart rest')
    (h : w.toList ++ rest = w'.toList ++ rest') : w = w' ∧ rest = rest' := by
  have htake : ∀ {v : String} {s : List Char}, IsWord v → Apart s →
      (v.toList ++ s).takeWhile isWordChar = v.toList := by
    intro v s hv hs
    rw [List.takeWhile_append_of_pos hv.2]
    rcases s with _ | ⟨c, s⟩
    · simp
    · simp [hs c rfl]
  have heq : w.toList = w'.toList := by rw [← htake hw hr, h, htake hw' hr']
  rw [heq, List.append_cancel_left_eq] at h
  exact ⟨String.toList_inj.mp heq, h⟩

/-- A word is not mistaken for what begins with another character. -/
theorem IsWord.append_ne_cons {w : String} (hw : IsWord w) {c : Char}
    (hc : isWordChar c = false) {rest s : List Char} : w.toList ++ rest ≠ c :: s := by
  intro h
  obtain ⟨d, ds, hlist⟩ := List.exists_cons_of_ne_nil hw.1
  have hd := hw.2 d (by simp [hlist])
  rw [hlist, List.cons_append] at h
  rw [(List.cons.inj h).1, hc] at hd
  contradiction

theorem isWord_toString (n : Nat) : IsWord (toString n) := by
  rw [Nat.toString_eq_ofList_toDigits]
  unfold IsWord
  rw [String.toList_ofList]
  refine ⟨Nat.toDigits_ne_nil, fun c hc => ?_⟩
  have hdigit := Nat.isDigit_of_mem_toDigits (by omega) (by omega) hc
  simp [isWordChar, Char.isAlphanum, hdigit]

/-! ## Full names -/

/-- The names that a program may choose: a letter, then letters and digits, and a unique from
the supply. -/
structure IsPlainName (text : String) (unique : Int) : Prop where
  letter : text.toList.head?.any Char.isAlpha = true
  letters : ∀ c ∈ text.toList, c.isAlphanum = true
  unique_nonneg : 0 ≤ unique

instance (text : String) (unique : Int) : Decidable (IsPlainName text unique) :=
  decidable_of_iff (text.toList.head?.any Char.isAlpha = true ∧
    text.toList.all Char.isAlphanum = true ∧ 0 ≤ unique)
    ⟨fun ⟨hletter, hletters, hunique⟩ => ⟨hletter, List.all_eq_true.mp hletters, hunique⟩,
      fun h => ⟨h.letter, List.all_eq_true.mpr h.letters, h.unique_nonneg⟩⟩

namespace IsPlainName

variable {text text' : String} {unique unique' : Int}

theorem toList_uniqueText (h : IsPlainName text unique) :
    (uniqueText text unique).toList = text.toList ++ '_' :: Nat.toDigits 10 unique.toNat := by
  obtain ⟨n, rfl⟩ := Int.eq_ofNat_of_zero_le h.unique_nonneg
  have hn : toString (n : Int) = toString n := rfl
  simp [uniqueText, hn]

theorem isWord (h : IsPlainName text unique) : IsWord (uniqueText text unique) := by
  unfold IsWord
  rw [h.toList_uniqueText]
  refine ⟨by simp, ?_⟩
  intro c hc
  unfold isWordChar
  rcases List.mem_append.mp hc with hc | hc
  · simp [h.letters c hc]
  · rcases List.mem_cons.mp hc with rfl | hc
    · rfl
    · have hdigit := Nat.isDigit_of_mem_toDigits (by omega) (by omega) hc
      simp [Char.isAlphanum, hdigit]

/-- The mark before the unique is in no keyword and in no literal. -/
theorem mark_mem (h : IsPlainName text unique) : '_' ∈ (uniqueText text unique).toList := by
  simp [h.toList_uniqueText]

theorem ne_of_mark_not_mem (h : IsPlainName text unique) {w : String} (hw : '_' ∉ w.toList) :
    uniqueText text unique ≠ w := by
  rintro rfl
  exact hw h.mark_mem

/-- A full name is read back to its text and its unique. -/
theorem eq_of_uniqueText_eq (h : IsPlainName text unique) (h' : IsPlainName text' unique')
    (heq : uniqueText text unique = uniqueText text' unique') :
    text = text' ∧ unique = unique' := by
  have hlist := congrArg String.toList heq
  rw [h.toList_uniqueText, h'.toList_uniqueText] at hlist
  have hmark : '_' ∉ text.toList := by
    intro hmem
    have := h.letters '_' hmem
    contradiction
  obtain ⟨htext, _, hunique⟩ :=
    (List.append_cons_inj_of_notMem hmark Nat.underscore_not_in_toDigits).mp hlist
  have hnat := toDigits_injective hunique
  have := h.unique_nonneg
  have := h'.unique_nonneg
  exact ⟨String.toList_inj.mp htext, by omega⟩

end IsPlainName

end FomegaLab
