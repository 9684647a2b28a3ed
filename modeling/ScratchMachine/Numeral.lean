/-!
# Decimal numerals with a sign or a width

Offsets are written with their sign, `+3` or `-3`, and code positions padded with zeros to four places.
-/

namespace ScratchMachine.Numeral

/-- An integer with its sign, which is `+` for zero. -/
def signed (n : Int) : String :=
  if 0 ≤ n then "+" ++ toString n.natAbs else "-" ++ toString n.natAbs

/-- The digits of `n`, with zeros in front up to `width` of them. -/
def padded (width : Nat) (n : Nat) : String :=
  let digits := Nat.toDigits 10 n
  String.ofList (List.replicate (width - digits.length) '0' ++ digits)

/-- A position in code: four places, of which a minus sign takes one. -/
def position (n : Int) : String :=
  if 0 ≤ n then padded 4 n.natAbs else "-" ++ padded 3 n.natAbs

end ScratchMachine.Numeral
