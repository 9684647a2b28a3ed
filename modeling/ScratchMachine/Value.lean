import ScratchMachine.Hex
import ScratchMachine.ValueType

/-!
# Values

What stands on the machine's stack and in its scratch slots.
-/

namespace ScratchMachine

/-- A value of the machine. -/
inductive Value where
  | uint (n : UInt64)
  | bytes (b : List UInt8)
  deriving DecidableEq, Repr

/-- A slot that was never written holds zero. -/
instance : Inhabited Value := ⟨.uint 0⟩

namespace Value

/-- The type of a value. -/
def type : Value → ValueType
  | uint _ => .uint64
  | bytes _ => .bytes

/-- Integers in decimal, bytes in hexadecimal behind `0x`. -/
protected def text : Value → String
  | uint n => toString n
  | bytes b => "0x" ++ Hex.text b

instance : ToString Value := ⟨Value.text⟩

/-- One for true, zero for false. -/
def ofBool (b : Bool) : Value := .uint (if b then 1 else 0)

end Value

end ScratchMachine
