import ScratchMachine.Builder
import ScratchMachine.Variable

/-!
# Compilers

A compiler owns all that one compilation changes: the slots, the blocks, the subroutines defined so far and how far
their declaration has come.  This module has its state and the requests for variables and subroutines.
-/

namespace ScratchMachine

/-- How far the declaration of a subroutine has come. -/
inductive Status where
  | undeclared
  /-- Its body is being built or lowered. -/
  | declaring
  | declared (declaration : Declaration)

/-- A defined subroutine. -/
structure Definition (σ : Type) where
  handle : Subroutine
  body : Body σ
  status : Status := .undeclared

/-- The state of one compilation. -/
structure Compiler (σ : Type) where
  /-- Tells the compilers of one host apart. -/
  key : Nat
  options : Options
  slots : SlotAllocator
  graph : BlockGraph := {}
  /-- The subroutines in the order of their definition, which is that of their numbers. -/
  definitions : List (Definition σ) := []
  /-- The subroutines that are called and still wait for their declaration. -/
  pending : List Subroutine := []
  /-- The subroutine whose body is being lowered; none for the main program. -/
  current : Option Subroutine := none
  /-- The state of the host. -/
  host : σ

/-- Something done with a compiler, which may be refused on the way; what was done before that stays. -/
abbrev Compiling (σ α : Type) := ExceptT CompileError (StateM (Compiler σ)) α

namespace Compiler

variable {σ : Type}

/-- A compiler that nothing was asked of yet. -/
def create (key : Nat) (options : Options) (host : σ) : Except CompileError (Compiler σ) := do
  options.validate
  return { key, options, slots := .empty options.slotCount, host }

/-- Does something with the graph. -/
def onGraph {α : Type} (action : Linking α) : Compiling σ α := ExceptT.mk do
  modifyGet fun c =>
    let (answer, graph) := action.run.run c.graph
    (answer, { c with graph })

/-! ### Variables -/

/-- A slot as it is asked for. -/
def newLocation (request : SlotRequest) : Compiling σ Location := do
  let (location, slots) ← (← get).slots.take request
  modify ({ · with slots })
  return location

/-- A variable.  With a target it is an alias, which takes no slot of its own and shares that of the target. -/
def newVariable (type : ValueType) (request : SlotRequest) (target : Option Variable) : Compiling σ Variable := do
  match target, request with
  | none, request => return ⟨type, ← newLocation request, none⟩
  | some target, .pool =>
    if target.isAlias then throw .aliasOfAlias
    return ⟨type, target.location, some target.type⟩
  | some _, _ => throw .slotForAlias

/-! ### Subroutines -/

/-- Defines a subroutine.  Its body is built when it is declared. -/
def define (c : Compiler σ) (name : String) (params : List Param) (returns : ValueType) (body : Body σ) :
    Subroutine × Compiler σ :=
  let handle : Subroutine := ⟨c.key, ⟨UInt32.ofNat c.definitions.length⟩, name, params, returns⟩
  (handle, { c with definitions := c.definitions ++ [{ handle, body }] })

/-- The first subroutine of a name. -/
def lookup (c : Compiler σ) (name : String) : Option Subroutine :=
  (c.definitions.find? (·.handle.name = name)).map (·.handle)

/-- The definition of a subroutine, if this compiler made it. -/
def definition? (c : Compiler σ) (s : Subroutine) : Option (Definition σ) :=
  c.definitions[s.id.number.toNat]?.filter (·.handle = s)

/-- The definition of a subroutine, which has to be one of this compiler. -/
def definition (s : Subroutine) : Compiling σ (Definition σ) := do
  match (← get).definition? s with
  | some d => return d
  | none => throw (.notDefinedHere s.name)

/-- Notes how far the declaration of a subroutine has come. -/
def setStatus (s : Subroutine) (status : Status) : Compiling σ Unit :=
  modify fun c =>
    { c with definitions := c.definitions.modify s.id.number.toNat fun d => { d with status } }

/-- Lets a subroutine wait for its declaration, unless it waits already or its declaration is made or being made. -/
def enqueue (s : Subroutine) : Compiling σ Unit := do
  match (← definition s).status with
  | .undeclared =>
    modify fun c => if c.pending.any s.sameId then c else { c with pending := c.pending ++ [s] }
  | .declaring | .declared _ => pure ()

end Compiler

end ScratchMachine
