import ScratchMachine.Program

/-!
# Static check of the stack height

A scan over a run of operations, from first to last, that follows the height of the stack and refuses a run that
would take more than is there.  It does not follow jumps, and stops at the first call, since a subroutine may take
and leave anything.
-/

namespace ScratchMachine

/-- What an operation takes off the stack and puts on it. -/
structure StackEffect where
  pops : Nat
  pushes : Nat
  deriving DecidableEq, Repr, Inhabited

/-- The effect of an operation, which is unknown for a call. -/
def Operation.stackEffect? : Operation → Option StackEffect
  | int _ | byte _ | load _ => some ⟨0, 1⟩
  | pop | store _ | jumpIfFalse _ | switch _ | ret => some ⟨1, 0⟩
  | add | sub | mul | div | mod | eq | ne | lt | gt | le | ge | and | or => some ⟨2, 1⟩
  | not | loads => some ⟨1, 1⟩
  | stores => some ⟨2, 0⟩
  | jump _ | retsub | err => some ⟨0, 0⟩
  | callsub _ => none

/-- An operation that takes more than is on the stack. -/
structure StackUnderflow where
  position : Nat
  op : Operation
  needed : Nat
  deriving DecidableEq, Repr

namespace StackUnderflow

/-- What is wrong. -/
def message (e : StackUnderflow) : String :=
  s!"stack underflow at ip={e.position}, op={e.op}, needed {e.needed} items"

/-- The message under its heading. -/
protected def text (e : StackUnderflow) : String := s!"stack-check error: {e.message}"

instance : ToString StackUnderflow := ⟨StackUnderflow.text⟩

end StackUnderflow

/-- Scans operations, of which the first stands at `position` and finds the stack at `height`. -/
def checkHeightFrom (position : Nat) (height : Int) : List Operation → Except StackUnderflow Unit
  | [] => .ok ()
  | op :: ops =>
    match op.stackEffect? with
    | none => .ok ()
    | some effect =>
      if height < effect.pops then .error ⟨position, op, effect.pops⟩
      else checkHeightFrom (position + 1) (height - effect.pops + effect.pushes) ops

/-- Scans operations from the first, which finds the stack at `height`. -/
def checkHeight (height : Int) (ops : List Operation) : Except StackUnderflow Unit := checkHeightFrom 0 height ops

end ScratchMachine
