import ScratchMachine.Compiler.Declaring
import ScratchMachine.BlockGraph.Linear
import ScratchMachine.Program

/-!
# Compilations

A compilation is the main program and all subroutines it needs, as fragments of one graph.  Assembling
turns each of them into a code object of its own.
-/

namespace ScratchMachine

/-- A compiled program. -/
structure Compilation where
  options : Options
  graph : BlockGraph
  /-- The main program. -/
  main : Fragment
  /-- The declared subroutines in the order of their numbers. -/
  declarations : List Declaration

namespace Compiler

variable {σ : Type}

/-- Declares the subroutines that wait, and those that come to wait meanwhile, in order and `rounds` of them at
most. -/
def declarePending (depth : Nat) : (rounds : Nat) → Declaring σ Unit
  | 0 => do
    match (← get).pending with
    | [] => pure ()
    | _ :: _ => Declaring.tooDeep
  | rounds + 1 => do
    match (← get).pending with
    | [] => pure ()
    | s :: rest =>
      modify ({ · with pending := rest })
      discard <| declare depth s
      declarePending depth rounds

/-- The declarations made so far. -/
def declarations (c : Compiler σ) : List Declaration :=
  c.definitions.filterMap fun d =>
    match d.status with
    | .declared declaration => some declaration
    | _ => none

/-- Lowers the main program and declares every subroutine that it needs; `limit` bounds their number and the nesting
of their bodies. -/
def compile (limit : Nat) (root : Expr) : Declaring σ Compilation := do
  modify ({ · with current := none })
  let main ← Declaring.perform (lower root)
  declarePending limit limit
  let c ← get
  return { options := c.options, graph := c.graph, main, declarations := c.declarations }

end Compiler

namespace Compilation

/-- The declaration of a subroutine. -/
def declaration? (c : Compilation) (id : SubroutineId) : Option Declaration :=
  c.declarations.find? (·.subroutine.id = id)

/-- The code object of a declaration. -/
def codeObject (graph : BlockGraph) (d : Declaration) : Except CompileError CodeObject := do
  return ⟨d.subroutine.name, (← graph.linearize d.fragment.entry).toArray⟩

/-- The program: the main code object, then those of the subroutines. -/
def assemble (c : Compilation) : Except CompileError Program := do
  let main ← c.graph.linearize c.main.entry
  let subroutines ← c.declarations.mapM (codeObject c.graph)
  let entries := c.declarations.mapIdx fun i d => (d.subroutine.id, UInt64.ofNat (i + 1))
  return ⟨⟨"main", main.toArray⟩ :: subroutines, .ofList entries⟩

end Compilation

end ScratchMachine
