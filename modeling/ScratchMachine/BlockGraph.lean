import ScratchMachine.BlockGraph.Block
import ScratchMachine.CompileError

/-!
# Block graphs and their linking

A graph holds all blocks of one compilation, numbered in the order of their making.  Fragments are put together by
linking the open end of one to the entry of another; a block is linked once and then keeps its exit.  An operation
that fails keeps what it has done to the graph so far.
-/

namespace ScratchMachine

/-- The blocks of one compilation. -/
structure BlockGraph where
  blocks : Array Block := #[]
  deriving DecidableEq, Repr, Inhabited

/-- Something done to a graph, which may be refused on the way. -/
abbrev Linking (α : Type) := ExceptT CompileError (StateM BlockGraph) α

namespace BlockGraph

/-- The number of blocks. -/
def size (g : BlockGraph) : Nat := g.blocks.size

/-- The block of a number. -/
def block? (g : BlockGraph) (id : BlockId) : Option Block := g.blocks[id.index]?

/-- The block of a number, which has to be in the graph. -/
def block (g : BlockGraph) (id : BlockId) : Except CompileError Block :=
  match g.block? id with
  | some b => .ok b
  | none => .error (.unknownBlock id)

theorem block_eq_ok {g : BlockGraph} {id : BlockId} {b : Block} : g.block id = .ok b ↔ g.block? id = some b := by
  unfold block
  cases g.block? id <;> simp

/-- The blocks that control may reach from one block directly. -/
def successors (g : BlockGraph) (id : BlockId) : List BlockId :=
  match g.block? id with
  | some b => b.successors
  | none => []

/-! ### Single blocks -/

/-- Gives a block another exit. -/
def setExit (id : BlockId) (exit : Exit) : Linking Unit :=
  modify fun g => { g with blocks := g.blocks.modify id.index fun b => { b with exit } }

/-- A new open block. -/
def addBlock (ops : List Operation) : Linking BlockId := do
  let id : BlockId := ⟨(← get).size⟩
  modify fun g => { g with blocks := g.blocks.push ⟨ops, .opened⟩ }
  return id

/-- Gives an open block its exit. -/
def close (id : BlockId) (exit : Exit) : Linking Unit := do
  let b ← (← get).block id
  unless b.exit = .opened do throw (.alreadyLinked id b.exit)
  setExit id exit

/-- Makes control go from one block to another. -/
def link (source target : BlockId) : Linking Unit := close source (.next target)

/-- Makes control go from one block to one of at least two others. -/
def branch (source : BlockId) : List BlockId → Linking Unit
  | first :: second :: others => close source (.branch first second others)
  | few => throw (.tooFewTargets few.length)

/-- Marks a block as one that control never gets past, unless it has an exit already. -/
def terminate (id : BlockId) : Linking Unit := do
  let b ← (← get).block id
  if b.exit = .opened then setExit id .terminal

/-! ### Fragments -/

/-- A fragment of one open block. -/
def fragment (ops : List Operation) : Linking Fragment := do
  let id ← addBlock ops
  return ⟨id, some id⟩

/-- Makes control go from the end of a fragment to a block; `context` is for the error if there is no end. -/
def follow (context : String) (last : Option BlockId) (target : BlockId) : Linking Unit :=
  match last with
  | some source => link source target
  | none => throw (.neverFallsThrough context)

/-- One fragment, then another. -/
def seq (first second : Fragment) : Linking Fragment := do
  follow "seq" first.exit second.entry
  return ⟨first.entry, second.exit⟩

/-- Makes control go through fragments in order, after a block where it starts; the result is where it ends. -/
def chain (last : Option BlockId) : List Fragment → Linking (Option BlockId)
  | [] => return last
  | next :: rest => do
    follow "argument list" last next.entry
    chain next.exit rest

/-- The fragments in order, then an operation in a block of its own, which is made first of all. -/
def applyOp (op : Operation) (children : List Fragment) : Linking Fragment := do
  let own ← addBlock [op]
  let entry ← match children with
    | [] => pure own
    | first :: rest => do
      follow "argument list" (← chain first.exit rest) own
      pure first.entry
  if op.isTerminal then
    setExit own .terminal
    return ⟨entry, none⟩
  else return ⟨entry, some own⟩

end BlockGraph

end ScratchMachine
