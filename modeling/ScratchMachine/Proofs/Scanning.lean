import ScratchMachine.Proofs.Layout
import ScratchMachine.StackHeight

/-!
# The static check, block by block

The static check scans the operations in the order of their layout.  What it asks of the code of a block is little: as
many values as the operations take in all, and one more in the end if the block branches.  A jump costs nothing.

* `Linear.Passes`: items that the scan gets past, with a natural number for the height.
* `Linear.passes_block`: what is enough for the code of a block.
* `Linear.checkHeight_eq_ok`: the check accepts the operations that such items stand for.
-/

namespace ScratchMachine

/-! ### What operations take and leave -/

namespace Operation

/-- How many values operations take off the stack in all, up to the first call. -/
def takenBy : List Operation → Nat
  | [] => 0
  | op :: ops =>
    match op.stackEffect? with
    | none => 0
    | some effect => effect.pops + takenBy ops

/-- How many values operations put on the stack in all, up to the first call. -/
def leftBy : List Operation → Nat
  | [] => 0
  | op :: ops =>
    match op.stackEffect? with
    | none => 0
    | some effect => effect.pushes + leftBy ops

/-- None of the operations is a call. -/
def NoCalls (ops : List Operation) : Prop := ∀ op ∈ ops, op.stackEffect? ≠ none

end Operation

/-- How many values it takes to leave a block: a branch pops the integer that it chooses by. -/
def Exit.toll : Exit → Nat
  | branch .. => 1
  | opened | next _ | terminal => 0

namespace BlockGraph.Linear

/-! ### The scan of items -/

/-- The stack effect of the operation that an item stands for. -/
def Item.stackEffect? : Item → Option StackEffect
  | .op o => o.stackEffect?
  | .jump _ => some ⟨0, 0⟩
  | .jumpIfFalse _ | .switch _ => some ⟨1, 0⟩

theorem stackEffect?_resolve {placed : List Placed} {position : Nat} {item : Item} {op : Operation}
    (h : resolve placed position item = .ok op) : op.stackEffect? = item.stackEffect? := by
  cases item with
  | op o =>
    cases h
    rfl
  | jump t =>
    obtain ⟨o, -, h⟩ := except_bind_eq_ok.1 h
    cases h
    rfl
  | jumpIfFalse t =>
    obtain ⟨o, -, h⟩ := except_bind_eq_ok.1 h
    cases h
    rfl
  | switch ts =>
    obtain ⟨os, -, h⟩ := except_bind_eq_ok.1 h
    cases h
    rfl

/-- The scan gets past the items if it finds the stack at a height. -/
def Passes (height : Nat) : List Item → Prop
  | [] => True
  | item :: rest =>
    match item.stackEffect? with
    | none => True
    | some effect => effect.pops ≤ height ∧ Passes (height - effect.pops + effect.pushes) rest

theorem checkHeightFrom_eq_ok {placed : List Placed} {start position height : Nat} {items : List Item}
    {ops : List Operation} (h : resolveFrom placed start items = .ok ops) (hpasses : Passes height items) :
    checkHeightFrom position height ops = .ok () := by
  induction items generalizing start position height ops with
  | nil =>
    cases h
    rfl
  | cons item items ih =>
    rw [resolveFrom] at h
    obtain ⟨op, hop, h⟩ := except_bind_eq_ok.1 h
    obtain ⟨rest, hrest, h⟩ := except_bind_eq_ok.1 h
    cases h
    rw [Passes] at hpasses
    rw [checkHeightFrom, stackEffect?_resolve hop]
    cases heffect : item.stackEffect? with
    | none => rfl
    | some effect =>
      rw [heffect] at hpasses
      obtain ⟨hpops, hpasses⟩ := hpasses
      have hheight : (height : Int) - effect.pops + effect.pushes =
          ((height - effect.pops + effect.pushes : Nat) : Int) := by omega
      dsimp only
      rw [if_neg (by omega), hheight]
      exact ih hrest hpasses

/-- The static check accepts the operations that items stand for if the scan gets past the items. -/
theorem checkHeight_eq_ok {placed : List Placed} {ops : List Operation}
    (h : resolveFrom placed 0 (placed.flatMap (·.2)) = .ok ops) (hpasses : Passes 0 (placed.flatMap (·.2))) :
    checkHeight 0 ops = .ok () := checkHeightFrom_eq_ok h hpasses

/-! ### The code of a block -/

theorem passes_ops {ops : List Operation} {height : Nat} {rest : List Item} (htaken : Operation.takenBy ops ≤ height)
    (hrest : Operation.NoCalls ops → Passes (height - Operation.takenBy ops + Operation.leftBy ops) rest) :
    Passes height (ops.map .op ++ rest) := by
  induction ops generalizing height with
  | nil => exact hrest fun op hop => absurd hop List.not_mem_nil
  | cons op ops ih =>
    rw [Operation.takenBy] at htaken hrest
    rw [Operation.leftBy] at hrest
    rw [List.map_cons, List.cons_append, Passes, Item.stackEffect?]
    cases heffect : op.stackEffect? with
    | none => trivial
    | some effect =>
      rw [heffect] at htaken hrest
      dsimp only at htaken hrest ⊢
      refine ⟨by omega, ih (by omega) fun hcalls => ?_⟩
      have hheight : height - effect.pops + effect.pushes - Operation.takenBy ops + Operation.leftBy ops =
          height - (effect.pops + Operation.takenBy ops) + (effect.pushes + Operation.leftBy ops) := by omega
      rw [hheight]
      refine hrest fun op' hop' => ?_
      rcases List.mem_cons.1 hop' with rfl | hop'
      · rw [heffect]
        simp
      · exact hcalls op' hop'

theorem passes_jumpUnless {height : Nat} {rest : List Item} (hrest : Passes height rest) (following : Option BlockId)
    (target : BlockId) : Passes height (jumpUnless following target ++ rest) := by
  unfold jumpUnless
  split
  · exact hrest
  · exact ⟨Nat.zero_le _, hrest⟩

theorem passes_exitCode {exit : Exit} {height : Nat} {rest : List Item} (htoll : exit.toll ≤ height)
    (hrest : Passes (height - exit.toll) rest) (following : Option BlockId) :
    Passes height (exitCode following exit ++ rest) := by
  cases exit with
  | opened =>
    rw [exitCode]
    split
    · exact ⟨Nat.zero_le _, hrest⟩
    · exact hrest
  | next target => exact passes_jumpUnless hrest following target
  | branch first second others =>
    cases others with
    | nil => exact ⟨htoll, passes_jumpUnless hrest following first⟩
    | cons other others => exact ⟨htoll, passes_jumpUnless hrest following _⟩
  | terminal => exact hrest

/-- It is enough if there are as many values as the operations of the block take in all.  What follows is scanned only
if none of them is a call, and then the toll of the exit is due. -/
theorem passes_block {b : Block} {height : Nat} {rest : List Item} (htaken : Operation.takenBy b.ops ≤ height)
    (hrest : Operation.NoCalls b.ops →
      b.exit.toll ≤ height - Operation.takenBy b.ops + Operation.leftBy b.ops ∧
        Passes (height - Operation.takenBy b.ops + Operation.leftBy b.ops - b.exit.toll) rest)
    (following : Option BlockId) : Passes height (b.ops.map .op ++ exitCode following b.exit ++ rest) := by
  rw [List.append_assoc]
  refine passes_ops htaken fun hcalls => ?_
  obtain ⟨htoll, hrest⟩ := hrest hcalls
  exact passes_exitCode htoll hrest following

end BlockGraph.Linear

end ScratchMachine
