import ScratchMachine.Machine.Fault
import ScratchMachine.Value

/-!
# The effect of operations on memory

The memory of the machine is its operand stack and its scratch slots.  `Operation.execute` is what an operation does
to it, and where control is to go next.  An operation that fails keeps what it has done to memory so far.
-/

namespace ScratchMachine

/-- The operand stack, with its top first, and the scratch slots. -/
structure Memory where
  stack : List Value
  scratch : Array Value
  deriving DecidableEq, Repr, Inhabited

/-- An empty stack and slots that were never written. -/
def Memory.blank (slotCount : Nat) : Memory := ⟨[], Array.replicate slotCount default⟩

/-- Something done to memory, which may fail on the way. -/
abbrev Effect (α : Type) := ExceptT Fault (StateM Memory) α

namespace Effect

/-! ### The stack -/

/-- Puts a value on the stack. -/
def push (v : Value) : Effect Unit := modify fun m => { m with stack := v :: m.stack }

/-- Takes the top off the stack. -/
def pop : Effect Value := do
  match (← get).stack with
  | [] => throw (.stackUnderflow 1 0)
  | v :: rest =>
    modify ({ · with stack := rest })
    return v

/-- Takes the top off the stack, which must be an integer. -/
def popInteger : Effect UInt64 := do
  match ← pop with
  | .uint n => return n
  | v => throw (.typeMismatch ValueType.uint64.text v.type.text)

/-- Replaces two integers, of which the second is on top, by one. -/
def combine (f : UInt64 → UInt64 → Except Fault UInt64) : Effect Unit := do
  match (← get).stack with
  | _ :: _ :: _ => pure ()
  | short => throw (.stackUnderflow 2 short.length)
  let b ← popInteger
  let a ← popInteger
  push (.uint (← f a b))

/-- Replaces two integers by the outcome of a test. -/
def test (f : UInt64 → UInt64 → Bool) : Effect Unit := combine fun a b => .ok (if f a b then 1 else 0)

/-- Replaces two values of one type by whether they are equal, or by whether they are not. -/
def compare (expected : Bool) : Effect Unit := do
  let b ← pop
  let a ← pop
  if a.type ≠ b.type then throw (.typeMismatch a.type.text b.type.text)
  push (.ofBool ((a == b) == expected))

/-! ### The scratch slots -/

/-- Fails if no slot has this number. -/
def requireSlot (index : UInt64) : Effect Unit := do
  let count := (← get).scratch.size
  unless index.toNat < count do throw (.slotOutOfRange index count)

/-- Pushes the value of a slot. -/
def readSlot (index : UInt64) : Effect Unit := do
  requireSlot index
  push ((← get).scratch.getD index.toNat default)

/-- Sets a slot. -/
def writeSlot (index : UInt64) (v : Value) : Effect Unit := do
  requireSlot index
  modify fun m => { m with scratch := m.scratch.setIfInBounds index.toNat v }

end Effect

/-- Where control is to go after an operation. -/
inductive Continuation where
  /-- To the operation that follows. -/
  | advance
  /-- By an offset from the operation. -/
  | jump (offset : Int32)
  /-- Into a subroutine. -/
  | call (id : SubroutineId)
  /-- Out of the subroutine. -/
  | leave
  /-- Nowhere: the program ends with this value. -/
  | halt (exit : Value)
  deriving DecidableEq, Repr

namespace Operation

open Effect

/-- What an operation does to memory, and where control goes then. -/
def execute : Operation → Effect Continuation
  | int n => do push (.uint n); return .advance
  | byte b => do push (.bytes b); return .advance
  | pop => do discard Effect.pop; return .advance
  | add => do combine fun a b => .ok (a + b); return .advance
  | sub => do combine fun a b => .ok (a - b); return .advance
  | mul => do combine fun a b => .ok (a * b); return .advance
  | div => do combine fun a b => if b = 0 then .error .divisionByZero else .ok (a / b); return .advance
  | mod => do combine fun a b => if b = 0 then .error .divisionByZero else .ok (a % b); return .advance
  | eq => do compare true; return .advance
  | ne => do compare false; return .advance
  | lt => do test fun a b => a < b; return .advance
  | gt => do test fun a b => b < a; return .advance
  | le => do test fun a b => a ≤ b; return .advance
  | ge => do test fun a b => b ≤ a; return .advance
  | and => do test fun a b => a ≠ 0 ∧ b ≠ 0; return .advance
  | or => do test fun a b => a ≠ 0 ∨ b ≠ 0; return .advance
  | not => do
    let a ← popInteger
    push (.ofBool (a = 0))
    return .advance
  | load slot => do readSlot slot; return .advance
  | store slot => do
    let v ← Effect.pop
    writeSlot slot v
    return .advance
  | loads => do
    let slot ← popInteger
    readSlot slot
    return .advance
  | stores => do
    let v ← Effect.pop
    let slot ← popInteger
    writeSlot slot v
    return .advance
  | jump offset => return .jump offset
  | jumpIfFalse offset => do
    let n ← popInteger
    return if n = 0 then .jump offset else .advance
  | switch offsets => do
    let i ← popInteger
    return match offsets[i.toNat]? with
      | some offset => .jump offset
      | none => .advance
  | callsub id => return .call id
  | retsub => return .leave
  | ret => do return .halt (← Effect.pop)
  | err => throw .errExecuted

end Operation

end ScratchMachine
