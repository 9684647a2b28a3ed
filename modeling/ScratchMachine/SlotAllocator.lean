import ScratchMachine.CompileError
import ScratchMachine.Expr

/-!
# The allocation of scratch slots

An allocator hands out the slots of one compilation: by number on request, or from a pool that goes upward and skips
the numbers that were asked for.  A slot whose number is computed at run time takes no place in it.
-/

namespace ScratchMachine

/-- How a slot is asked for. -/
inductive SlotRequest where
  /-- Any slot that is free. -/
  | pool
  /-- The slot of this number. -/
  | fixed (id : Int)
  /-- The slot whose number the expression computes. -/
  | computed (index : Expr)

/-- What has been handed out so far. -/
structure SlotAllocator where
  /-- The number of slots. -/
  capacity : UInt64
  /-- Where the pool looks for the next slot. -/
  next : UInt64 := 0
  /-- The slots that were asked for by number, each once. -/
  reserved : List UInt64 := []
  /-- The slots that the pool handed out. -/
  pooled : List UInt64 := []
  deriving DecidableEq, Repr, Inhabited

namespace SlotAllocator

/-- Nothing handed out, of so many slots. -/
def empty (capacity : UInt64) : SlotAllocator := { capacity }

/-- The number of slots handed out. -/
def used (r : SlotAllocator) : Nat := r.reserved.length + r.pooled.length

/-- The least slot from `candidate` on that nobody asked for by number. -/
def freeFrom? (r : SlotAllocator) (candidate : UInt64) : Option UInt64 :=
  if candidate < r.capacity then
    if candidate ∈ r.reserved then r.freeFrom? (candidate + 1) else some candidate
  else none
termination_by r.capacity.toNat - candidate.toNat
decreasing_by
  rename_i h _
  have hlt := UInt64.lt_iff_toNat_lt.1 h
  have hcap := r.capacity.toNat_lt
  rw [UInt64.toNat_add, UInt64.toNat_one, Nat.mod_eq_of_lt (by omega)]
  omega

/-- A slot from the pool. -/
def takePooled (r : SlotAllocator) : Except CompileError (Location × SlotAllocator) :=
  match r.freeFrom? r.next with
  | some slot => .ok (.pooled slot, { r with next := slot + 1, pooled := slot :: r.pooled })
  | none => .error (.noFreeSlot r.capacity)

/-- The slot of a number, which the pool must not have handed out; it may be asked for more than once. -/
def takeFixed (r : SlotAllocator) (id : Int) : Except CompileError (Location × SlotAllocator) :=
  if 0 ≤ id ∧ id < r.capacity.toNat then
    let slot := UInt64.ofNat id.toNat
    if slot ∈ r.pooled then .error (.slotFromPool slot)
    else .ok (.fixed slot, { r with reserved := r.reserved.insert slot })
  else .error (.slotOutOfRange id r.capacity)

/-- The slot whose number an expression computes, which has to leave an integer. -/
def takeComputed (r : SlotAllocator) (index : Expr) : Except CompileError (Location × SlotAllocator) :=
  if ValueType.uint64.accepts index.type then .ok (.computed index, r) else .error (.slotIndexType index.type)

/-- A slot as it is asked for, and the allocator after that.  A request that is refused changes nothing. -/
def take (r : SlotAllocator) : SlotRequest → Except CompileError (Location × SlotAllocator)
  | .pool => r.takePooled
  | .fixed id => r.takeFixed id
  | .computed index => r.takeComputed index

/-- The allocator with everything handed back. -/
def reset (r : SlotAllocator) : SlotAllocator := empty r.capacity

end SlotAllocator

end ScratchMachine
