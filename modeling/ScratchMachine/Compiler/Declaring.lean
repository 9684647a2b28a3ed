import ScratchMachine.Compiler.Lowering

/-!
# Declaring subroutines

To declare a subroutine is to build its body, once, and to lower it behind operations that store the arguments.  The
body's builder may itself ask for declarations, and a host can make such requests nest without end; so the nesting is
followed to a given depth only, and a declaration that goes deeper has no answer.
-/

namespace ScratchMachine

/-- Something done with a compiler in which hosts take part; it has no answer if declarations nest too deep. -/
abbrev Declaring (σ α : Type) := ExceptT CompileError (StateT (Compiler σ) Option) α

namespace Declaring

variable {σ α : Type}

/-- What involves no host always has an answer. -/
def perform (action : Compiling σ α) : Declaring σ α := ExceptT.mk fun c => some (action.run.run c)

/-- Does something and returns its error as an answer. -/
def attempt (action : Declaring σ α) : Declaring σ (Except CompileError α) := ExceptT.lift action.run

/-- No answer. -/
def tooDeep : Declaring σ α := ExceptT.mk fun _ => none

end Declaring

open Compiler Declaring

variable {σ : Type}

/-- Does what a builder asks for, given how to declare a subroutine. -/
def Builder.run (declare : Subroutine → Declaring σ Declaration) : Builder σ → Declaring σ Expr
  | done body => return body
  | fail error => throw error
  | newVariable type request target next => do
    let answer ← attempt (perform (Compiler.newVariable type request target))
    (next answer).run declare
  | define name params returns body next => do
    let handle ← modifyGet fun c => c.define name params returns body
    (next handle).run declare
  | lookup name next => do
    let answer := (← get).lookup name
    (next answer).run declare
  | Builder.declare sub next => do
    let answer ← attempt (declare sub)
    (next answer).run declare
  | lower e next => do
    let answer ← attempt (perform (Compiler.lower e))
    (next answer).run declare
  | inspect next => do
    let c ← get
    (next c.options c.graph).run declare
  | getState next => do
    let c ← get
    (next c.host).run declare
  | setState state next => do
    modify ({ · with host := state })
    next.run declare

namespace Compiler

/-! ### The parts of a declaration -/

/-- The variable that holds a parameter, and the parameter's handle.  A parameter passed by reference is an alias of
the variable whose slot number is held. -/
def bindParam (p : Param) : Compiling σ (Variable × Arg) := do
  match p.passing with
  | .value =>
    let v ← newVariable p.type .pool none
    return (v, .value v.load)
  | .ref =>
    let holder ← newVariable .uint64 .pool none
    let target ← newVariable p.type (.computed holder.load) none
    let shared ← newVariable target.type .pool (some target)
    return (holder, .ref shared)

/-- Refuses a body that falls through and leaves something else than the subroutine returns. -/
def checkBody (s : Subroutine) (body : Expr) : Except CompileError Unit :=
  if body.alwaysReturns || s.returns.accepts body.type then .ok ()
  else .error (.bodyType s.name body.type s.returns)

/-- The body with a return at its end, unless it always returns. -/
def withReturn (s : Subroutine) (body : Expr) : Expr :=
  if body.alwaysReturns then body
  else if s.returns = .none then .seq [body, .retNothing]
  else .ret body

/-- What a subroutine runs: it stores its arguments, the last of which is on top, and goes on with its body. -/
def prologue (holders : List Variable) (tail : Expr) : Except CompileError Expr := do
  let stores ← holders.reverse.mapM (·.storeTop)
  return .seq (stores ++ [tail])

/-- Lowers an expression as part of a subroutine. -/
def lowerWithin (s : Subroutine) (e : Expr) : Declaring σ Fragment := do
  let outer := (← get).current
  modify ({ · with current := some s })
  let answer ← attempt (perform (lower e))
  modify ({ · with current := outer })
  answer

/-- Builds and lowers a subroutine, given how to declare those its body asks for. -/
def build (declare : Subroutine → Declaring σ Declaration) (d : Definition σ) : Declaring σ Declaration := do
  let s := d.handle
  let params ← perform (s.params.mapM bindParam)
  let holders := params.map (·.1)
  let body ← (d.body s (params.map (·.2))).run declare
  checkBody s body
  let code ← prologue holders (withReturn s body)
  let fragment ← lowerWithin s code
  return { subroutine := s, body, fragment, holders }

/-- Declares a subroutine, given how to build it, unless that has been done.  If it fails, the subroutine is as
undeclared as before. -/
def declareBy (build : Definition σ → Declaring σ Declaration) (s : Subroutine) : Declaring σ Declaration := do
  let d ← perform (definition s)
  match d.status with
  | .declared declaration => return declaration
  | .declaring => throw (.declarationInProgress s.name)
  | .undeclared =>
    perform (setStatus s .declaring)
    match ← attempt (build d) with
    | .ok declaration =>
      perform (setStatus s (.declared declaration))
      return declaration
    | .error e =>
      perform (setStatus s .undeclared)
      throw e

/-- Declares a subroutine, with bodies nested to a depth of at most `depth`. -/
def declare : (depth : Nat) → Subroutine → Declaring σ Declaration
  | 0, s => declareBy (fun _ => tooDeep) s
  | depth + 1, s => declareBy (build (declare depth)) s

end Compiler

end ScratchMachine
