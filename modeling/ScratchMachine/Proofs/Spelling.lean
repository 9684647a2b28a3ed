import ScratchMachine.Proofs.Fallible
import ScratchMachine.Proofs.RoundTrip

/-!
# How numbers can be spelled

A number is written as the shortest varint, but read from longer ones too, which have zero digits at the high end.  The
bytes of a program are numbers, each with its width, and contents that stand for themselves.  So all that can differ
between two ways to write the same tokens is the spelling of the numbers.

* `Varint.Spells`: the varints of a number; `Varint.spells_of_read` and `Varint.Spells.read`: a reader takes such a varint
  off the front, and takes every one of them.
* `Varint.Spells.length_le`, `Varint.Spells.eq_encode_iff`: the minimal one is the shortest, and the one that is written.
* `Token.Spells`, `Token.Minimal`: the same of the tokens of a program.
-/

namespace ScratchMachine

namespace Varint

variable {width n : Nat} {front rest : List UInt8}

/-! ### Varints -/

/-- The bytes are a varint of a number of at most `width` bits.  All but the last have their high bit set. -/
inductive Spells : Nat → Nat → List UInt8 → Prop
  | last {width : Nat} {b : UInt8} : b.toNat < 128 → b.toNat < 2 ^ width → Spells width b.toNat [b]
  | more {width high : Nat} {b : UInt8} {rest : List UInt8} : 7 < width → 128 ≤ b.toNat →
      Spells (width - 7) high rest → Spells width (b.toNat - 128 + 128 * high) (b :: rest)

/-- The highest digit, which is the last byte, is not zero, unless it is the only one. -/
def Minimal (b : List UInt8) : Prop := b.length = 1 ∨ b.getLast? ≠ some 0

theorem spells_of_read {bytes : List UInt8} (h : read width bytes = .ok (n, rest)) :
    ∃ front, bytes = front ++ rest ∧ Spells width n front := by
  induction bytes generalizing width n with
  | nil => cases h
  | cons b bytes ih =>
    rw [read] at h
    split at h
    · rename_i hwidth
      split at h
      · rename_i hshift
        cases h
        have hlt : b.toNat < 2 ^ width := by
          rwa [Nat.shiftRight_eq_div_pow, Nat.div_eq_zero_iff_lt (Nat.two_pow_pos width)] at hshift
        have hle : 2 ^ width ≤ 2 ^ 7 := Nat.pow_le_pow_right (by decide) hwidth
        exact ⟨[b], rfl, .last (by omega) hlt⟩
      · cases h
    · rename_i hwidth
      split at h
      · rename_i hlt
        cases h
        have hle : 2 ^ 7 ≤ 2 ^ width := Nat.pow_le_pow_right (by decide) (by omega)
        exact ⟨[b], rfl, .last hlt (by omega)⟩
      · rename_i hmore
        obtain ⟨⟨high, rest'⟩, hread, h⟩ := except_bind_eq_ok.1 h
        cases h
        obtain ⟨front, rfl, hspells⟩ := ih hread
        exact ⟨b :: front, rfl, .more (by omega) (by omega) hspells⟩

namespace Spells

theorem read (h : Spells width n front) (rest : List UInt8) : Varint.read width (front ++ rest) = .ok (n, rest) := by
  induction h with
  | @last width b hlt hfits =>
    have hshift : b.toNat >>> width = 0 := by rw [Nat.shiftRight_eq_div_pow, Nat.div_eq_of_lt hfits]
    rw [List.singleton_append, Varint.read, if_pos hlt, if_pos hshift, ite_self]
  | more hwidth hmore _ ih =>
    rw [List.cons_append, Varint.read, if_neg (by omega), if_neg (by omega), ih]
    rfl

theorem lt (h : Spells width n front) : n < 2 ^ width := by
  induction h with
  | last _ hfits => exact hfits
  | @more width high b rest hwidth _ _ ih =>
    have hsplit : 2 ^ width = 128 * 2 ^ (width - 7) := by
      rw [show (128 : Nat) = 2 ^ 7 from rfl, ← Nat.pow_add, Nat.add_sub_cancel' (Nat.le_of_lt hwidth)]
    have hb := b.toNat_lt
    omega

theorem ne_nil (h : Spells width n front) : front ≠ [] := by
  cases h with
  | last _ _ => exact List.cons_ne_nil _ _
  | more _ _ _ => exact List.cons_ne_nil _ _

end Spells

/-! ### The shortest varint -/

theorem encode_ne_nil (n : Nat) : encode n ≠ [] := by
  rw [encode]
  split
  · exact List.cons_ne_nil _ _
  · exact List.cons_ne_nil _ _

theorem encode_of_lt {b : UInt8} (h : b.toNat < 128) : encode b.toNat = [b] := by
  rw [encode, if_pos h, UInt8.ofNat_toNat]

/-- A number with a digit in front of others is written as that digit and then the others. -/
theorem encode_more {b : UInt8} {high : Nat} (hb : 128 ≤ b.toNat) (hhigh : high ≠ 0) :
    encode (b.toNat - 128 + 128 * high) = b :: encode high := by
  have hlt := b.toNat_lt
  have hmod : (b.toNat - 128 + 128 * high) % 128 + 128 = b.toNat := by omega
  have hdiv : (b.toNat - 128 + 128 * high) / 128 = high := by omega
  rw [encode, if_neg (by omega), hmod, hdiv, UInt8.ofNat_toNat]

theorem getLast?_encode (h : n ≠ 0) : (encode n).getLast? ≠ some 0 := by
  induction n using Nat.strongRecOn with
  | ind n ih =>
    rw [encode]
    split
    · rename_i hlt
      rw [List.getLast?_singleton, ne_eq, Option.some.injEq, ← UInt8.toNat_inj, UInt8.toNat_ofNat',
        Nat.mod_eq_of_lt (by omega)]
      exact h
    · rw [List.getLast?_cons_of_ne_nil (encode_ne_nil _)]
      exact ih (n / 128) (by omega) (by omega)

theorem minimal_encode (n : Nat) : Minimal (encode n) := by
  by_cases h : n = 0
  · subst h
    exact .inl (by rw [encode]; rfl)
  · exact .inr (getLast?_encode h)

theorem length_encode_mono {a b : Nat} (h : a ≤ b) : (encode a).length ≤ (encode b).length := by
  induction b using Nat.strongRecOn generalizing a with
  | ind b ih =>
    by_cases ha : a < 128
    · rw [encode, if_pos ha]
      exact List.length_pos_iff.2 (encode_ne_nil b)
    · have hstep : ∀ c, ¬ c < 128 → (encode c).length = (encode (c / 128)).length + 1 := by
        intro c hc
        rw [encode, if_neg hc, List.length_cons]
      rw [hstep a ha, hstep b (by omega)]
      exact Nat.succ_le_succ (ih (b / 128) (by omega) (Nat.div_le_div_right h))

namespace Spells

theorem length_le (h : Spells width n front) : (encode n).length ≤ front.length := by
  induction h with
  | last hlt _ => rw [encode_of_lt hlt]
  | @more width high b rest _ hb _ ih =>
    by_cases hhigh : high = 0
    · -- all that follows are zero digits
      subst hhigh
      have hlt := b.toNat_lt
      rw [encode, if_pos (by omega)]
      exact Nat.succ_le_succ (Nat.zero_le _)
    · rw [encode_more hb hhigh]
      exact Nat.succ_le_succ ih

/-- A varint is the one that is written if no digit can be left out of it. -/
theorem eq_encode_iff (h : Spells width n front) : front = encode n ↔ Minimal front := by
  constructor
  · rintro rfl
    exact minimal_encode n
  · intro hminimal
    induction h with
    | last hlt _ => rw [encode_of_lt hlt]
    | @more width high b rest _ hb hrest ih =>
      have hlast : rest.getLast? ≠ some 0 := by
        rcases hminimal with hone | hlast
        · exact absurd (List.length_eq_zero_iff.1 (Nat.succ.inj hone)) hrest.ne_nil
        · rwa [List.getLast?_cons_of_ne_nil hrest.ne_nil] at hlast
      have heq := ih (.inr hlast)
      have hhigh : high ≠ 0 := by
        rintro rfl
        rw [heq, encode] at hlast
        exact hlast rfl
      rw [encode_more hb hhigh, heq]

end Spells

/-! ### Signed numbers -/

theorem fold_unfold {n : Nat} (h : n < 2 ^ 32) : Varint.fold (Varint.unfold n) = n := by
  have hfold : ∀ o : Int32, Varint.fold o = if o.toInt < 0 then 2 * (-o.toInt).toNat - 1 else 2 * o.toInt.toNat := by
    intro o
    unfold Varint.fold
    split <;> rename_i k hk
    · have hk : o.toInt = k := hk
      rw [if_neg (by omega)]
      omega
    · rw [if_pos (by omega)]
      omega
  unfold Varint.unfold
  split
  · rw [hfold, Int.ofNat_eq_natCast, Int32.toInt_ofInt_of_le (by omega) (by omega), if_neg (by omega)]
    omega
  · rw [hfold, Int32.toInt_ofInt_of_le (by omega) (by omega), if_pos (by omega)]
    omega

end Varint

/-! ### Tokens -/

/-- What the bytes of a program are made of. -/
inductive Token where
  /-- A number of at most `width` bits. -/
  | number (width n : Nat)
  /-- Bytes that stand for themselves. -/
  | content (b : List UInt8)

namespace Token

/-- The bytes stand for the token. -/
def Spells : Token → List UInt8 → Prop
  | number width n, b => Varint.Spells width n b
  | content c, b => b = c

/-- If the token is a number, then the bytes are a minimal varint. -/
def Minimal : Token → List UInt8 → Prop
  | number _ _, b => Varint.Minimal b
  | content _, _ => True

/-- The shortest bytes that stand for the token. -/
def encode : Token → List UInt8
  | number _ n => Varint.encode n
  | content c => c

variable {t : Token} {ts : List Token} {b : List UInt8} {pieces : List (List UInt8)}

theorem Spells.length_le (h : t.Spells b) : t.encode.length ≤ b.length := by
  cases t with
  | number width n => exact Varint.Spells.length_le h
  | content c => exact Nat.le_of_eq (congrArg List.length h.symm)

theorem Spells.eq_encode_iff (h : t.Spells b) : b = t.encode ↔ t.Minimal b := by
  cases t with
  | number width n => exact Varint.Spells.eq_encode_iff h
  | content c => exact ⟨fun _ => trivial, fun _ => h⟩

/-! ### Tokens in a row -/

theorem length_flatten_le (h : List.Forall₂ Spells ts pieces) : (ts.flatMap encode).length ≤ pieces.flatten.length := by
  induction h with
  | nil => exact Nat.le_refl 0
  | cons ht _ ih =>
    rw [List.flatMap_cons, List.flatten_cons, List.length_append, List.length_append]
    exact Nat.add_le_add ht.length_le ih

/-- Tokens are written in the shortest way exactly if all their numbers are. -/
theorem flatten_eq_iff (h : List.Forall₂ Spells ts pieces) :
    pieces.flatten = ts.flatMap encode ↔ List.Forall₂ Minimal ts pieces := by
  induction h with
  | nil => exact ⟨fun _ => .nil, fun _ => rfl⟩
  | @cons t b ts pieces ht hts ih =>
    rw [List.flatten_cons, List.flatMap_cons, List.forall₂_cons, ← ih, ← ht.eq_encode_iff]
    constructor
    · intro heq
      -- neither part can be shorter than what is written for it
      have hle := ht.length_le
      have hle' := length_flatten_le hts
      have hlength := congrArg List.length heq
      rw [List.length_append, List.length_append] at hlength
      exact List.append_inj heq (by omega)
    · rintro ⟨hb, hpieces⟩
      rw [hb, hpieces]

end Token

end ScratchMachine
