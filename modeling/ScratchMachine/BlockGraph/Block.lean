import ScratchMachine.Operation

/-!
# Blocks

A block is a run of operations and an exit, which says where control goes after them.  A block is open until it is
linked; only open blocks can be linked.
-/

namespace ScratchMachine

/-- The number of a block in its graph.  Two blocks with the same operations are still two blocks. -/
structure BlockId where
  index : Nat
  deriving DecidableEq, Repr, Inhabited

instance : ToString BlockId := ⟨fun id => s!"block#{id.index}"⟩

/-- Where control goes after the operations of a block. -/
inductive Exit where
  /-- Not linked yet: the block is the end of its fragment. -/
  | opened
  /-- To one block. -/
  | next (target : BlockId)
  /-- Pops an integer and picks a target.  Of two, nonzero takes the first and zero the second; of more, the integer
  is an index, and one that is out of range takes the last target. -/
  | branch (first second : BlockId) (others : List BlockId)
  /-- Nowhere: the last operation never falls through. -/
  | terminal
  deriving DecidableEq, Repr, Inhabited

namespace Exit

/-- The blocks that control may go to, in order. -/
def targets : Exit → List BlockId
  | next target => [target]
  | branch first second others => first :: second :: others
  | opened | terminal => []

/-- The exit as messages show it. -/
protected def text : Exit → String
  | opened => "Open"
  | next target => s!"Next({name target})"
  | branch first second others => "Branch([" ++ ", ".intercalate ((first :: second :: others).map name) ++ "])"
  | terminal => "Terminal"
where
  /-- A target in an exit's text. -/
  name (id : BlockId) : String := s!"BlockId({id.index})"

instance : ToString Exit := ⟨Exit.text⟩

end Exit

/-- A run of operations and where control goes after it. -/
structure Block where
  ops : List Operation
  exit : Exit
  deriving DecidableEq, Repr, Inhabited

/-- The blocks that control may reach next. -/
def Block.successors (b : Block) : List BlockId := b.exit.targets

/-- What an expression becomes: the block to enter, and the open block to link onward from, which is missing if
control never falls through. -/
structure Fragment where
  entry : BlockId
  exit : Option BlockId
  deriving DecidableEq, Repr, Inhabited

end ScratchMachine
