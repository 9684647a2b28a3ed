import ScratchMachine.CompileError
import ScratchMachine.Expr.Text

/-!
# Access to variables

A variable of known slot that owns its storage is read and written by that slot's number.  Any other is accessed
through an expression that leaves the number of its slot.
-/

namespace ScratchMachine.Variable

/-- The number of the slot that the variable owns, if it is known before the program runs. -/
def ownSlot? (v : Variable) : Option UInt64 := if v.isAlias then none else v.location.index?

/-- An expression that leaves the number of the variable's slot.  To pass the variable by reference is to pass this
number. -/
def index (v : Variable) : Expr := v.location.indexExpr

/-- An expression that leaves the value of the variable. -/
def load (v : Variable) : Expr :=
  match v.ownSlot? with
  | some slot => .ofOp (.load slot) [] v.type
  | none => v.index.andThen .loads v.type

/-- An expression that sets the variable and leaves nothing. -/
def store (v : Variable) (value : Expr) : Except CompileError Expr := do
  value.type.require v.type
  match v.ownSlot? with
  | some slot => return .ofOp (.store slot) [value] .none
  | none => return .ofOp .stores [v.index, value] .none

/-- An expression that moves the top of the stack into the variable. -/
def storeTop (v : Variable) : Except CompileError Expr :=
  match v.ownSlot? with
  | some slot => .ok (.ofOp (.store slot) [] .none)
  | none => .error (.storeTop v.slot.text)

end ScratchMachine.Variable
