/-!
# Numbers as varints

A number is written in digits of seven bits, lowest first, one to a byte; the high bit of a byte says that another
follows.  A reader knows the width of the number it expects and refuses what does not fit.

* `Varint.read_encode`: a number of the expected width reads back, and the bytes after it are left alone.
-/

namespace ScratchMachine

/-- Why bytes are not those of a program. -/
inductive DecodeError where
  /-- The bytes end too early. -/
  | endOfBytes
  /-- A number is longer than its width allows. -/
  | unterminatedNumber
  /-- A name is not valid UTF-8. -/
  | invalidText
  /-- No operation has this number. -/
  | unknownOperation (tag : Nat)
  deriving DecidableEq, Repr

/-- The wording of an error. -/
def DecodeError.message : DecodeError → String
  | endOfBytes => "Hit the end of buffer, expected more data"
  | unterminatedNumber => "Found a varint that didn't terminate. Is the usize too big for this platform?"
  | invalidText => "Tried to parse invalid utf-8"
  | unknownOperation _ => "Serde Deserialization Error"

/-- Takes something off the front of a string of bytes. -/
abbrev Reader (α : Type) := StateT (List UInt8) (Except DecodeError) α

namespace Varint

/-- The shortest varint of a number. -/
def encode (n : Nat) : List UInt8 :=
  if n < 128 then [UInt8.ofNat n] else UInt8.ofNat (n % 128 + 128) :: encode (n / 128)
termination_by n
decreasing_by omega

/-- Reads a number of at most `width` bits.  Zero digits at the high end are accepted as far as the width reaches. -/
def read (width : Nat) : Reader Nat
  | [] => .error .endOfBytes
  | b :: rest =>
    if width ≤ 7 then
      if b.toNat >>> width = 0 then .ok (b.toNat, rest) else .error .unterminatedNumber
    else if b.toNat < 128 then .ok (b.toNat, rest)
    else do
      let (high, rest) ← read (width - 7) rest
      return (b.toNat - 128 + 128 * high, rest)

private theorem toNat_ofNat_of_lt {n : Nat} (h : n < 256) : (UInt8.ofNat n).toNat = n := by
  rw [UInt8.toNat_ofNat', Nat.mod_eq_of_lt h]

theorem read_encode (width n : Nat) (h : n >>> width = 0) (rest : List UInt8) :
    read width (encode n ++ rest) = .ok (n, rest) := by
  induction n using Nat.strongRecOn generalizing width with
  | ind n ih =>
    rw [encode]
    by_cases hw : width ≤ 7
    · have hn : n < 128 := by
        rw [Nat.shiftRight_eq_div_pow, Nat.div_eq_zero_iff_lt (Nat.two_pow_pos width)] at h
        exact Nat.lt_of_lt_of_le h (Nat.pow_le_pow_right (by decide) hw)
      simp [hn, read, hw, toNat_ofNat_of_lt (by omega : n < 256), h]
    · by_cases hn : n < 128
      · simp [hn, read, hw, toNat_ofNat_of_lt (by omega : n < 256)]
      · have hlow := toNat_ofNat_of_lt (by omega : n % 128 + 128 < 256)
        have hhigh : (n / 128) >>> (width - 7) = 0 := by
          rw [← h, show width = 7 + (width - 7) by omega, Nat.shiftRight_add, Nat.shiftRight_eq_div_pow n 7]
          simp
        rw [if_neg hn, List.cons_append, read, if_neg hw, hlow, if_neg (by omega),
          ih (n / 128) (by omega) (width - 7) hhigh]
        show Except.ok _ = Except.ok _
        congr 2
        omega

end Varint

end ScratchMachine
