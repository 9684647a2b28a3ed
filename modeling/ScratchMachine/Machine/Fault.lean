import ScratchMachine.StackHeight

/-!
# Runtime errors

What can go wrong while a program runs, and the error that reports it together with the active code objects.
-/

namespace ScratchMachine

/-- What goes wrong in a run. -/
inductive Fault where
  /-- Something in the words of whoever reports it. -/
  | stated (message : String)
  /-- The program has no code object. -/
  | noMain
  /-- The main code object fails the static check of the stack height. -/
  | unsoundMain (cause : StackUnderflow)
  /-- More operations than the limit allows. -/
  | stepLimit (limit : Nat)
  /-- More values on the stack than the limit allows. -/
  | stackLimit (limit : Nat)
  /-- More active code objects than the limit allows; `name` would have been the next. -/
  | depthLimit (limit : Nat) (name : String)
  /-- Too few values on the stack. -/
  | stackUnderflow (needed available : Nat)
  /-- A value of the wrong type. -/
  | typeMismatch (expected actual : String)
  /-- A division, or the remainder of one, by zero. -/
  | divisionByZero
  /-- No slot has this number. -/
  | slotOutOfRange (index : UInt64) (slotCount : Nat)
  /-- A jump out of its code object. -/
  | jumpOutOfBounds (position : Nat) (offset : Int32)
  /-- The program has no code for this subroutine. -/
  | undefinedSubroutine (id : SubroutineId)
  /-- A subroutine ran past its last operation. -/
  | missingRetsub (name : String)
  /-- The main code object executed `retsub`. -/
  | strayRetsub
  /-- The operation `err` was executed. -/
  | errExecuted
  deriving DecidableEq, Repr

/-- The wording of a fault. -/
def Fault.message : Fault → String
  | stated message => message
  | noMain => "bytecode program has no main code object"
  | unsoundMain cause => cause.message
  | stepLimit limit => s!"execution step limit exceeded ({limit})"
  | stackLimit limit => s!"stack size limit exceeded ({limit})"
  | depthLimit limit name => s!"call depth limit exceeded ({limit}) - possible infinite recursion in '{name}'"
  | stackUnderflow needed available => s!"stack underflow: needed {needed} value(s), stack has {available}"
  | typeMismatch expected actual => s!"type error: expected {expected}, got {actual}"
  | divisionByZero => "division by zero"
  | slotOutOfRange index slotCount => s!"scratch slot {index} out of range (machine has {slotCount} slots)"
  | jumpOutOfBounds position offset =>
    let target := position + offset.toInt
    s!"jump out of bounds: ip={position}, offset={offset.toInt}, target={target}"
  | undefinedSubroutine id => s!"undefined subroutine: {id}"
  | missingRetsub name => s!"subroutine '{name}' ended without retsub"
  | strayRetsub => "retsub outside of a subroutine"
  | errExecuted => "err opcode executed"

instance : ToString Fault := ⟨Fault.message⟩

/-- A fault and the names of the code objects that were active, innermost first. -/
structure RuntimeError where
  fault : Fault
  callStack : List String := []
  deriving DecidableEq, Repr

namespace RuntimeError

/-- The error seen from one code object further out. -/
def inContext (e : RuntimeError) (name : String) : RuntimeError := { e with callStack := e.callStack ++ [name] }

/-- The lines of a call stack, numbered from `start`. -/
def frameLines (start : Nat) : List String → String
  | [] => ""
  | name :: rest => s!"\n    {start}: {name}" ++ frameLines (start + 1) rest

/-- The message, then the call stack, if it is not empty. -/
protected def text (e : RuntimeError) : String :=
  let heading := s!"runtime error: {e.fault}"
  if e.callStack.isEmpty then heading else heading ++ "\n  call stack:" ++ frameLines 0 e.callStack

instance : ToString RuntimeError := ⟨RuntimeError.text⟩

end RuntimeError

end ScratchMachine
