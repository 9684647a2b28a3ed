import ScratchMachine.BlockGraph.Reachable

/-!
# Linear code

The blocks reachable from an entry become one run of operations, in the order of the search.  A block falls through
to the one that is placed right after it; any other way out of it is a jump.  An open block leads to the end of the
code.

* `Linear.place` writes the code of every block with jumps to blocks, `Linear.startOf` tells where a block's code
  begins, and `Linear.resolve` turns a jump to a block into one by an offset.
-/

namespace ScratchMachine

namespace BlockGraph.Linear

/-- Where a jump leads. -/
inductive Target where
  | block (id : BlockId)
  /-- Past the last operation. -/
  | finish
  deriving DecidableEq, Repr

/-- An operation, or a jump whose offset is not known yet. -/
inductive Item where
  | op (op : Operation)
  | jump (target : Target)
  | jumpIfFalse (target : Target)
  | switch (targets : List Target)
  deriving DecidableEq, Repr

/-! ### Placing -/

/-- A jump to a block, unless it follows anyway. -/
def jumpUnless (following : Option BlockId) (target : BlockId) : List Item :=
  if following = some target then [] else [.jump (.block target)]

/-- The code for the exit of a block, given the block that is placed after it. -/
def exitCode (following : Option BlockId) : Exit → List Item
  | .opened => if following.isSome then [.jump .finish] else []
  | .next target => jumpUnless following target
  | .branch first second [] => .jumpIfFalse (.block second) :: jumpUnless following first
  | .branch first second (other :: others) =>
    let cases := first :: second :: (other :: others).dropLast
    .switch (cases.map .block) :: jumpUnless following ((other :: others).getLast (by simp))
  | .terminal => []

/-- A block with its code. -/
abbrev Placed := BlockId × List Item

/-- The code of blocks in the order of their places. -/
def place : List (BlockId × Block) → List Placed
  | [] => []
  | (id, b) :: rest => (id, b.ops.map .op ++ exitCode (rest.head?.map (·.1)) b.exit) :: place rest

/-! ### Resolving -/

/-- The position where the code of a block begins. -/
def startOf (id : BlockId) : List Placed → Nat
  | [] => 0
  | (b, code) :: rest => if b = id then 0 else code.length + startOf id rest

/-- The position that a target stands for. -/
def Target.position (placed : List Placed) : Target → Nat
  | block id => startOf id placed
  | finish => (placed.flatMap (·.2)).length

/-- The offset from one position to another, which has to fit the machine. -/
def offset (source target : Nat) : Except CompileError Int32 :=
  let distance : Int := target - source
  if Int32.minValue.toInt ≤ distance ∧ distance ≤ Int32.maxValue.toInt then .ok (Int32.ofInt distance)
  else .error .offsetTooLarge

/-- The operation that an item at `position` stands for. -/
def resolve (placed : List Placed) (position : Nat) : Item → Except CompileError Operation
  | .op o => .ok o
  | .jump t => return .jump (← offset position (t.position placed))
  | .jumpIfFalse t => return .jumpIfFalse (← offset position (t.position placed))
  | .switch ts => return .switch (← ts.mapM fun t => offset position (t.position placed))

/-- The operations that items stand for, of which the first is at `position`. -/
def resolveFrom (placed : List Placed) (position : Nat) : List Item → Except CompileError (List Operation)
  | [] => .ok []
  | item :: rest => do
    let op ← resolve placed position item
    let ops ← resolveFrom placed (position + 1) rest
    return op :: ops

end BlockGraph.Linear

/-- The code of the blocks reachable from `entry`. -/
def BlockGraph.linearize (g : BlockGraph) (entry : BlockId) : Except CompileError (List Operation) := do
  let placed := Linear.place (← g.trace entry)
  Linear.resolveFrom placed 0 (placed.flatMap (·.2))

end ScratchMachine
