import ScratchMachine.CompileError
import ScratchMachine.Expr.Text

/-!
# Calls

A call takes as many arguments as its subroutine has parameters, each passed as its parameter asks and of a type that
fits.
-/

namespace ScratchMachine.Subroutine

/-- Refuses an argument, the one at `index`, that does not fit its parameter. -/
def checkArg (s : Subroutine) (index : Nat) (param : Param) (arg : Arg) : Except CompileError Unit :=
  match param.passing, arg with
  | .value, .value e =>
    if e.type = .none then .error (.argumentWithoutValue e.text index s.name)
    else if param.type.accepts e.type then .ok ()
    else .error (.argumentType param.name s.name param.type e.type)
  | .value, .ref v => .error (.argumentIsVariable param.name s.name v.slot.text)
  | .ref, .ref v =>
    if param.type.accepts v.type then .ok ()
    else .error (.argumentVariableType param.name s.name param.type v.slot.text v.type)
  | .ref, .value e => .error (.argumentIsValue param.name s.name e.text)

/-- Refuses the first argument that does not fit its parameter; the first of both stand at `index`. -/
def checkArgsFrom (s : Subroutine) (index : Nat) : List Param → List Arg → Except CompileError Unit
  | param :: params, arg :: args => do
    s.checkArg index param arg
    s.checkArgsFrom (index + 1) params args
  | _, _ => .ok ()

/-- Refuses arguments that do not fit the parameters, their number first of all. -/
def checkArgs (s : Subroutine) (args : List Arg) : Except CompileError Unit :=
  if args.length = s.arity then s.checkArgsFrom 0 s.params args
  else .error (.arity s.name s.arity args.length)

/-- A call of the subroutine. -/
def call (s : Subroutine) (args : List Arg) : Except CompileError Expr := do
  s.checkArgs args
  return .call s args

end ScratchMachine.Subroutine
