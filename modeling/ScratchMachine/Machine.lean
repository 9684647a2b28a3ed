import ScratchMachine.Machine.Memory

/-!
# The machine

A machine runs the main code object of a program and the subroutines that it calls, one operation at a time, within
limits on the number of operations, the height of the stack and the depth of calls.

* `Machine.start` prepares a run, `Machine.step` makes one move of it, and `Progress.after` makes several.
-/

namespace ScratchMachine

/-- The size of a machine's scratch space and the limits on its runs. -/
structure Machine where
  /-- The most code objects that may be active at once. -/
  callDepth : Nat := 1000
  /-- The most operations that a run may execute, if there is such a limit. -/
  steps : Option Nat := none
  /-- The most values that may be on the stack when an operation begins. -/
  stackSize : Nat := 10000
  slotCount : Nat := 256
  deriving DecidableEq, Repr, Inhabited

/-- An active code object and the position of its next operation. -/
structure Frame where
  code : CodeObject
  position : Nat := 0
  deriving DecidableEq, Repr

/-- A run between two moves. -/
structure Execution where
  /-- The innermost of the active code objects. -/
  current : Frame
  /-- The other active code objects, from the caller of `current` out to the main one. -/
  callers : List Frame := []
  memory : Memory
  /-- How many operations have begun. -/
  steps : Nat := 0
  deriving DecidableEq, Repr

/-- How a run ends: with the exit value of the program, if it has one, or with an error. -/
abbrev Outcome := Except RuntimeError (Option Value)

/-- A run that goes on, or one that has ended and the memory it leaves. -/
inductive Progress where
  | running (e : Execution)
  | ended (outcome : Outcome) (memory : Memory)

/-- The names of the code objects of frames. -/
def Frame.names (frames : List Frame) : List String := frames.map (·.code.name)

namespace Execution

/-- The active code objects, innermost first. -/
def frames (e : Execution) : List Frame := e.current :: e.callers

/-- The end of a run by a fault in the innermost code object. -/
def fail (e : Execution) (fault : Fault) : Progress := .ended (.error ⟨fault, Frame.names e.frames⟩) e.memory

/-- The run with its innermost code object at another position. -/
def moveTo (e : Execution) (position : Nat) : Execution := { e with current := { e.current with position } }

/-- The run with its innermost code object at the operation that follows. -/
def advance (e : Execution) : Execution := e.moveTo (e.current.position + 1)

/-- The end of a code object whose last operation has been executed: that of the main one ends the run, with the top
of the stack; a subroutine has to end by `retsub`. -/
def finish (e : Execution) : Progress :=
  match e.callers with
  | [] => .ended (.ok e.memory.stack.head?) e.memory
  | _ :: _ => .ended (.error ⟨.missingRetsub e.current.code.name, Frame.names e.callers⟩) e.memory

end Execution

namespace Machine

/-! ### Moves -/

/-- Runs `code` for the given callers, unless that goes too deep. -/
def enter (m : Machine) (code : CodeObject) (callers : List Frame) (memory : Memory) (steps : Nat) : Progress :=
  if callers.length < m.callDepth then .running ⟨⟨code, 0⟩, callers, memory, steps⟩
  else .ended (.error ⟨.depthLimit m.callDepth code.name, Frame.names callers⟩) memory

/-- Counts an operation that is about to begin, and refuses one beyond the limits. -/
def charge (m : Machine) (e : Execution) : Except Fault Execution := do
  let count := e.steps + 1
  match m.steps with
  | some limit => if limit < count then throw (.stepLimit limit)
  | none => pure ()
  if m.stackSize < e.memory.stack.length then throw (.stackLimit m.stackSize)
  return { e with steps := count }

/-- Moves control as the operation just executed says. -/
def proceed (m : Machine) (p : Program) (e : Execution) : Continuation → Progress
  | .advance => .running e.advance
  | .jump offset =>
    let target := e.current.position + offset.toInt
    if 0 ≤ target ∧ target ≤ e.current.code.ops.size then .running (e.moveTo target.toNat)
    else e.fail (.jumpOutOfBounds e.current.position offset)
  | .call id =>
    match p.subroutine? id with
    | none => e.fail (.undefinedSubroutine id)
    | some code => m.enter code e.advance.frames e.memory e.steps
  | .leave =>
    match e.callers with
    | [] => e.fail .strayRetsub
    | caller :: callers => .running { e with current := caller, callers }
  | .halt exit => .ended (.ok (some exit)) e.memory

/-- One move: executes the next operation of the innermost code object, or finishes it if there is none. -/
def step (m : Machine) (p : Program) (e : Execution) : Progress :=
  match e.current.code.ops[e.current.position]? with
  | none => e.finish
  | some op =>
    match m.charge e with
    | .error fault => e.fail fault
    | .ok e =>
      match op.execute.run.run e.memory with
      | (.error fault, memory) => { e with memory }.fail fault
      | (.ok continuation, memory) => m.proceed p { e with memory } continuation

/-- Begins a run of a program on blank memory, if the program has a main code object that passes the static check. -/
def start (m : Machine) (p : Program) : Progress :=
  let memory := Memory.blank m.slotCount
  match p.main? with
  | none => .ended (.error ⟨.noMain, []⟩) memory
  | some main =>
    match checkHeight 0 main.ops.toList with
    | .error cause => .ended (.error ⟨.unsoundMain cause, []⟩) memory
    | .ok () => m.enter main [] memory 0

end Machine

/-! ### Runs -/

/-- A run after so many more moves, or at its end. -/
def Progress.after (m : Machine) (p : Program) : Nat → Progress → Progress
  | 0, r => r
  | _ + 1, .ended outcome memory => .ended outcome memory
  | n + 1, .running e => Progress.after m p n (m.step p e)

end ScratchMachine
