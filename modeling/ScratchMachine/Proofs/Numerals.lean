import Mathlib.Logic.Function.Basic
import ScratchMachine.Hex
import ScratchMachine.Numeral

/-!
# Numerals read back

Different numbers have different numerals, whether these carry a sign or are padded with zeros, and a numeral consists of
figures only.  So a text in which other characters part its numerals determines the numbers.

* `Numeral.padded_injective`, `Numeral.position_injective`, `Numeral.signed_injective`: the number from its numeral.
* `Numeral.isFigure_of_mem_position`, `Numeral.isFigure_of_mem_signed`: the characters of a numeral.
-/

namespace ScratchMachine

namespace Numeral

variable {c : Char} {width n : Nat} {z : Int}

/-- Whether a numeral can have the character: a digit or a sign. -/
def isFigure (c : Char) : Bool := c.isDigit || c = '-' || c = '+'

/-! ### Digits -/

theorem isDigit_of_mem_toDigits (h : c ∈ Nat.toDigits 10 n) : c.isDigit :=
  Nat.isDigit_of_mem_toDigits (by decide) (by decide) h

theorem toList_toString (n : Nat) : (toString n).toList = Nat.toDigits 10 n := by
  rw [Nat.toString_eq_repr, Nat.toList_repr]

theorem toString_injective : Function.Injective (toString : Nat → String) := by
  intro m n h
  rw [← Nat.ofDigitChars_ten_toDigits (n := m), ← toList_toString, h, toList_toString, Nat.ofDigitChars_ten_toDigits]

theorem isDigit_of_mem_toString (h : c ∈ (toString n).toList) : c.isDigit := by
  rw [toList_toString] at h
  exact isDigit_of_mem_toDigits h

/-! ### Zeros in front -/

theorem toList_padded (width n : Nat) : (padded width n).toList =
    List.replicate (width - (Nat.toDigits 10 n).length) '0' ++ Nat.toDigits 10 n := by
  rw [padded, String.toList_ofList]

theorem padded_injective (width : Nat) : Function.Injective (padded width) := by
  have hvalue (n : Nat) : Nat.ofDigitChars 10 (padded width n).toList 0 = n := by
    rw [toList_padded, Nat.ofDigitChars_append, Nat.ofDigitChars_replicate_zero, Nat.mul_zero,
      Nat.ofDigitChars_ten_toDigits]
  intro m n h
  rw [← hvalue m, h, hvalue]

theorem isDigit_of_mem_padded (h : c ∈ (padded width n).toList) : c.isDigit := by
  rw [toList_padded, List.mem_append] at h
  rcases h with h | h
  · rw [List.eq_of_mem_replicate h]
    decide
  · exact isDigit_of_mem_toDigits h

theorem toList_padded_ne_nil : (padded width n).toList ≠ [] := by
  rw [toList_padded]
  exact List.append_ne_nil_of_right_ne_nil _ Nat.toDigits_ne_nil

/-! ### Signs -/

theorem position_injective : Function.Injective position := by
  have hapart (m n : Nat) : padded 4 m ≠ "-" ++ padded 3 n := by
    intro h
    have hmem : '-' ∈ (padded 4 m).toList := by simp [h]
    exact absurd (isDigit_of_mem_padded hmem) (by decide)
  intro m n h
  rw [position, position] at h
  split at h <;> split at h
  · have habs := padded_injective 4 h
    omega
  · exact absurd h (hapart _ _)
  · exact absurd h.symm (hapart _ _)
  · have habs := padded_injective 3 ((String.append_right_inj _).1 h)
    omega

theorem isFigure_of_mem_position (h : c ∈ (position z).toList) : isFigure c := by
  rw [position] at h
  split at h
  · simp [isFigure, isDigit_of_mem_padded h]
  · rw [String.toList_append, List.mem_append] at h
    rcases h with h | h
    · simp_all [isFigure]
    · simp [isFigure, isDigit_of_mem_padded h]

theorem toList_position_ne_nil : (position z).toList ≠ [] := by
  rw [position]
  split
  · exact toList_padded_ne_nil
  · simp

theorem signed_injective : Function.Injective signed := by
  have hapart (s t : String) : "+" ++ s ≠ "-" ++ t := by
    intro h
    simpa using congrArg String.toList h
  intro m n h
  rw [signed, signed] at h
  split at h <;> split at h
  · have habs := toString_injective ((String.append_right_inj _).1 h)
    omega
  · exact absurd h (hapart _ _)
  · exact absurd h.symm (hapart _ _)
  · have habs := toString_injective ((String.append_right_inj _).1 h)
    omega

theorem isFigure_of_mem_signed (h : c ∈ (signed z).toList) : isFigure c := by
  have hcons (sign : String) (hsign : sign.toList.all isFigure) (h : c ∈ (sign ++ toString z.natAbs).toList) :
      isFigure c := by
    rw [String.toList_append, List.mem_append] at h
    rcases h with h | h
    · exact List.all_eq_true.1 hsign c h
    · simp [isFigure, isDigit_of_mem_toString h]
  rw [signed] at h
  split at h
  · exact hcons "+" (by decide) h
  · exact hcons "-" (by decide) h

end Numeral

/-! ### Bytes -/

theorem Hex.text_injective : Function.Injective Hex.text := by
  intro a b h
  have hdigits : Hex.digits a = Hex.digits b := by
    simpa only [Hex.text, String.toList_ofList] using congrArg String.toList h
  exact Option.some.inj ((Hex.ofDigits?_digits a).symm.trans (hdigits ▸ Hex.ofDigits?_digits b))

end ScratchMachine
