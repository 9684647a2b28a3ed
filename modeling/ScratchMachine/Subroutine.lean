import ScratchMachine.Operation
import ScratchMachine.ValueType

/-!
# Subroutines

A subroutine is known to expressions by a handle: who defined it, its number, its name, its parameters and the type
of what it leaves.  Its body stays with the compiler that defined it.
-/

namespace ScratchMachine

/-- How an argument is passed. -/
inductive Passing where
  /-- The subroutine receives a copy of the value. -/
  | value
  /-- The subroutine receives the number of the caller's slot and may write through it. -/
  | ref
  deriving DecidableEq, Repr, Inhabited

/-- A parameter.  For one passed by reference the type is that of the variable. -/
structure Param where
  name : String
  passing : Passing
  type : ValueType := .any
  deriving DecidableEq, Repr, Inhabited

/-- The handle of a subroutine. -/
structure Subroutine where
  /-- The key of the compiler that defined the subroutine.  Numbers are unique only among its definitions. -/
  owner : Nat
  id : SubroutineId
  name : String
  params : List Param
  /-- What a call leaves on the stack. -/
  returns : ValueType
  deriving DecidableEq, Repr, Inhabited

namespace Subroutine

/-- The number of parameters. -/
def arity (s : Subroutine) : Nat := s.params.length

/-- Whether two handles have the same number. -/
def sameId (s t : Subroutine) : Bool := s.id == t.id

end Subroutine

end ScratchMachine
