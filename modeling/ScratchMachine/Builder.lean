import ScratchMachine.Expr.Call
import ScratchMachine.Options
import ScratchMachine.BlockGraph
import ScratchMachine.SlotAllocator

/-!
# Builders of subroutine bodies

The body of a subroutine is built by the host when a compiler asks for it.  A builder is what the host does then: a
tree of requests to the compiler, each with a way to go on for every answer, that ends in an expression or in an
error.  A request that is refused is answered with the error, so the host may pass it on, or do something else.

The host has a state of its own, of a type `σ`, which its builders read and change.
-/

namespace ScratchMachine

/-- A subroutine whose body has been built and lowered. -/
structure Declaration where
  subroutine : Subroutine
  /-- The body as the host built it. -/
  body : Expr
  /-- The lowered body behind the operations that store the arguments. -/
  fragment : Fragment
  /-- For each parameter the variable that holds it: the value, or the number of the slot passed by reference. -/
  holders : List Variable

/-- What a host does to build a body. -/
inductive Builder (σ : Type) where
  /-- Ends with the body. -/
  | done (body : Expr)
  /-- Ends with an error. -/
  | fail (error : CompileError)
  /-- Asks for a variable, which is an alias if there is a target. -/
  | newVariable (type : ValueType) (request : SlotRequest) (target : Option Variable)
      (next : Except CompileError Variable → Builder σ)
  /-- Defines a subroutine by the builder of its body. -/
  | define (name : String) (params : List Param) (returns : ValueType)
      (body : Subroutine → List Arg → Builder σ) (next : Subroutine → Builder σ)
  /-- Looks a subroutine up by its name. -/
  | lookup (name : String) (next : Option Subroutine → Builder σ)
  /-- Asks for the declaration of a subroutine. -/
  | declare (sub : Subroutine) (next : Except CompileError Declaration → Builder σ)
  /-- Has an expression lowered. -/
  | lower (e : Expr) (next : Except CompileError Fragment → Builder σ)
  /-- Looks at the options and at the graph. -/
  | inspect (next : Options → BlockGraph → Builder σ)
  /-- Reads the state of the host. -/
  | getState (next : σ → Builder σ)
  /-- Changes the state of the host. -/
  | setState (state : σ) (next : Builder σ)

namespace Builder

instance {σ : Type} : Inhabited (Builder σ) := ⟨.done default⟩

/-- Goes on with an answer, or ends with the error. -/
def orFail {σ α : Type} (next : α → Builder σ) : Except CompileError α → Builder σ
  | .ok a => next a
  | .error e => .fail e

end Builder

/-- Builds the body of a subroutine from its handle and the handles of its parameters. -/
abbrev Body (σ : Type) := Subroutine → List Arg → Builder σ

end ScratchMachine
