/-!
# Bytes as hexadecimal digits

A byte is written as two lower-case digits, the high half first.  `Hex.ofDigits?_digits`: what is written reads
back.
-/

namespace ScratchMachine.Hex

/-- The sixteen digits in order. -/
def alphabet : List Char := "0123456789abcdef".toList

/-- The digit of a value below sixteen. -/
def digit (value : Nat) : Char := alphabet.getD value '0'

/-- The value of a digit of either case. -/
def valueOf? (c : Char) : Option Nat := alphabet.findIdx? (· = c.toLower)

/-- Two digits for every byte. -/
def digits : List UInt8 → List Char
  | [] => []
  | b :: rest => digit (b.toNat / 16) :: digit (b.toNat % 16) :: digits rest

/-- Reads pairs of digits; refuses other characters and an odd count. -/
def ofDigits? : List Char → Option (List UInt8)
  | [] => some []
  | [_] => none
  | high :: low :: rest => do
    let h ← valueOf? high
    let l ← valueOf? low
    let bytes ← ofDigits? rest
    return UInt8.ofNat (16 * h + l) :: bytes

/-- The digits of a string of bytes as text. -/
def text (bytes : List UInt8) : String := String.ofList (digits bytes)

/-- The bytes that a text of digits stands for. -/
def ofText? (s : String) : Option (List UInt8) := ofDigits? s.toList

private theorem valueOf?_digit {n : Nat} (h : n < 16) : valueOf? (digit n) = some n := by
  have all : ∀ n ∈ List.range 16, valueOf? (digit n) = some n := by decide
  exact all n (List.mem_range.2 h)

theorem ofDigits?_digits (bytes : List UInt8) : ofDigits? (digits bytes) = some bytes := by
  induction bytes with
  | nil => rfl
  | cons b rest ih =>
    have hb : b.toNat < 256 := b.toNat_lt
    have hv : UInt8.ofNat (16 * (b.toNat / 16) + b.toNat % 16) = b := by
      rw [Nat.div_add_mod]; exact UInt8.ofNat_toNat
    simp only [digits, ofDigits?, valueOf?_digit (show b.toNat / 16 < 16 by omega),
      valueOf?_digit (show b.toNat % 16 < 16 by omega), ih, Option.bind_eq_bind, Option.bind_some, hv]
    rfl

end ScratchMachine.Hex
