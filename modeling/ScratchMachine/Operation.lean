import ScratchMachine.Hex
import ScratchMachine.Numeral

/-!
# Machine operations

The instructions of the machine: their names, their written form, the version of the machine that introduced each,
and which of them never fall through to the next one.
-/

namespace ScratchMachine

/-- The number of a subroutine among those of its program. -/
structure SubroutineId where
  number : UInt32
  deriving DecidableEq, Repr, Inhabited

instance : ToString SubroutineId := ⟨fun id => s!"subroutine#{id.number}"⟩

/-- An instruction of the machine.  Offsets of jumps are relative to the position of the jump itself. -/
inductive Operation where
  /-- Pushes an integer: `( -- n )`. -/
  | int (n : UInt64)
  /-- Pushes a string of bytes: `( -- b )`. -/
  | byte (b : List UInt8)
  /-- Discards the top: `( x -- )`. -/
  | pop
  | add
  | sub
  | mul
  | div
  | mod
  | eq
  | ne
  | lt
  | gt
  | le
  | ge
  | and
  | or
  | not
  /-- Reads the slot of this number: `( -- x )`. -/
  | load (slot : UInt64)
  /-- Writes the slot of this number: `( x -- )`. -/
  | store (slot : UInt64)
  /-- Reads the slot whose number is on the stack: `( i -- x )`. -/
  | loads
  /-- Writes the slot whose number is below the value: `( i x -- )`. -/
  | stores
  /-- Continues at an offset. -/
  | jump (offset : Int32)
  /-- Continues at an offset if `n` is zero: `( n -- )`. -/
  | jumpIfFalse (offset : Int32)
  /-- Continues at the `i`-th offset, or with the next operation if there is none: `( i -- )`. -/
  | switch (offsets : List Int32)
  /-- Runs a subroutine. -/
  | callsub (id : SubroutineId)
  /-- Leaves the running subroutine. -/
  | retsub
  /-- Ends the program with `x`: `( x -- )`. -/
  | ret
  /-- Fails. -/
  | err
  deriving DecidableEq, Repr, Inhabited

namespace Operation

/-- The first version of the machine that has the operation. -/
def introducedIn : Operation → Nat
  | callsub _ | retsub => 4
  | loads | stores | switch _ => 5
  | _ => 2

/-- Whether control never falls through to the next operation. -/
def isTerminal : Operation → Bool
  | retsub | ret | err => true
  | _ => false

/-- The name of the operation without its operand. -/
def mnemonic : Operation → String
  | int _ => "int"
  | byte _ => "byte"
  | pop => "pop"
  | add => "+"
  | sub => "-"
  | mul => "*"
  | div => "/"
  | mod => "%"
  | eq => "=="
  | ne => "!="
  | lt => "<"
  | gt => ">"
  | le => "<="
  | ge => ">="
  | and => "&&"
  | or => "||"
  | not => "!"
  | load _ => "load"
  | store _ => "store"
  | loads => "loads"
  | stores => "stores"
  | jump _ => "jump"
  | jumpIfFalse _ => "jump_false"
  | switch _ => "switch"
  | callsub _ => "callsub"
  | retsub => "retsub"
  | ret => "return"
  | err => "err"

/-- The operand as it is written after the mnemonic, with the space that parts them. -/
def operandText : Operation → String
  | int n => " " ++ toString n
  | byte b => " 0x" ++ Hex.text b
  | load slot | store slot => " " ++ toString slot
  | jump offset | jumpIfFalse offset => " " ++ Numeral.signed offset.toInt
  | switch offsets => String.join (offsets.map fun o => " " ++ Numeral.signed o.toInt)
  | callsub id => " " ++ toString id
  | _ => ""

/-- The mnemonic, then the operand. -/
protected def text (op : Operation) : String := op.mnemonic ++ op.operandText

instance : ToString Operation := ⟨Operation.text⟩

/-- The offsets at which control may continue, other than by falling through. -/
def offsets : Operation → List Int32
  | jump offset | jumpIfFalse offset => [offset]
  | switch offsets => offsets
  | _ => []

end Operation

end ScratchMachine
