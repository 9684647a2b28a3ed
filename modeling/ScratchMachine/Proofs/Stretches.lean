import ScratchMachine.Proofs.Limits

/-!
# Stretches of a run

To follow a program, one says from which state of a run the machine comes to which, for stretches of its code, and puts
the stretches together.  Nothing is said of how many operations have begun, so the machine is one without a limit on them.

* `Machine.Takes`: the machine comes from one state of a run to another.  It is transitive.
* `Machine.Takes.advance`, `.jump`, `.call`, `.leave`: stretches of one move.
* `Operation.run_load`, `Operation.run_le`: what a read of a slot and a comparison do.
-/

namespace ScratchMachine

open Progress Fallible

namespace Machine

/-- However many operations have begun, a run comes from one state to another. -/
def Takes (m : Machine) (p : Program) (e e' : Execution) : Prop :=
  ∀ steps, ∃ k steps', (running { e with steps }).after m p k = running { e' with steps := steps' }

namespace Takes

variable {m : Machine} {p : Program} {e e' e'' : Execution}

theorem trans (h : m.Takes p e e') (h' : m.Takes p e' e'') : m.Takes p e e'' := by
  intro steps
  obtain ⟨k, mid, hk⟩ := h steps
  obtain ⟨n, last, hn⟩ := h' mid
  refine ⟨k + n, last, ?_⟩
  rw [after_add, hk, hn]

instance : Trans (m.Takes p) (m.Takes p) (m.Takes p) := ⟨trans⟩

/-! ### One move -/

variable {code : CodeObject} {pos : Nat} {callers : List Frame} {mem mem' : Memory}

/-- An operation that the machine can afford is executed, and control goes on as it says. -/
theorem of_proceed {op : Operation} {c : Continuation} (hfree : m.steps = none) (hfit : mem.stack.length ≤ m.stackSize)
    (hop : code.ops[pos]? = some op) (hrun : op.execute.run.run mem = (.ok c, mem'))
    (hgo : ∀ steps, m.proceed p ⟨⟨code, pos⟩, callers, mem', steps⟩ c = running { e' with steps }) :
    m.Takes p ⟨⟨code, pos⟩, callers, mem, 0⟩ e' := by
  intro steps
  refine ⟨1, steps + 1, ?_⟩
  have hnext : (Execution.mk ⟨code, pos⟩ callers mem steps).next? = some op := hop
  have hstep := step_of_affords (p := p) hnext ⟨by simp [hfree], hfit⟩
  rw [hrun] at hstep
  exact hstep.trans (hgo (steps + 1))

theorem advance {op : Operation} (hfree : m.steps = none) (hfit : mem.stack.length ≤ m.stackSize)
    (hop : code.ops[pos]? = some op) (hrun : op.execute.run.run mem = (.ok .advance, mem')) :
    m.Takes p ⟨⟨code, pos⟩, callers, mem, 0⟩ ⟨⟨code, pos + 1⟩, callers, mem', 0⟩ :=
  of_proceed hfree hfit hop hrun fun _ => rfl

theorem jump {op : Operation} {offset : Int32} {target : Nat} (hfree : m.steps = none)
    (hfit : mem.stack.length ≤ m.stackSize) (hop : code.ops[pos]? = some op)
    (hrun : op.execute.run.run mem = (.ok (.jump offset), mem')) (htarget : pos + offset.toInt = target)
    (hle : target ≤ code.ops.size) :
    m.Takes p ⟨⟨code, pos⟩, callers, mem, 0⟩ ⟨⟨code, target⟩, callers, mem', 0⟩ := by
  refine of_proceed hfree hfit hop hrun fun steps => ?_
  rw [proceed]
  dsimp only
  rw [htarget, if_pos ⟨by omega, by omega⟩]
  rfl

theorem call {id : SubroutineId} {callee : CodeObject} (hfree : m.steps = none)
    (hfit : mem.stack.length ≤ m.stackSize) (hop : code.ops[pos]? = some (.callsub id))
    (hcode : p.subroutine? id = some callee) (hdepth : callers.length + 1 < m.callDepth) :
    m.Takes p ⟨⟨code, pos⟩, callers, mem, 0⟩ ⟨⟨callee, 0⟩, ⟨code, pos + 1⟩ :: callers, mem, 0⟩ := by
  refine of_proceed hfree hfit hop (c := .call id) rfl fun steps => ?_
  rw [proceed_call _ _ hcode, enter]
  exact if_pos hdepth

theorem leave {caller : Frame} (hfree : m.steps = none) (hfit : mem.stack.length ≤ m.stackSize)
    (hop : code.ops[pos]? = some .retsub) :
    m.Takes p ⟨⟨code, pos⟩, caller :: callers, mem, 0⟩ ⟨caller, callers, mem, 0⟩ :=
  of_proceed hfree hfit hop (c := .leave) rfl fun _ => rfl

end Takes

end Machine

/-! ### Effects -/

namespace Operation

theorem run_load {slot : UInt64} {v : Value} {mem : Memory} (h : mem.scratch[slot.toNat]? = some v) :
    (load slot).execute.run.run mem = (.ok .advance, { mem with stack := v :: mem.stack }) := by
  rw [execute, run_bind, Effect.run_readSlot h]
  rfl

theorem run_le (a b : UInt64) (stack : List Value) (scratch : Array Value) :
    le.execute.run.run ⟨.uint b :: .uint a :: stack, scratch⟩ =
      (.ok .advance, ⟨.uint (if a ≤ b then 1 else 0) :: stack, scratch⟩) := by
  have hflag : (if decide (a ≤ b) = true then (1 : UInt64) else 0) = if a ≤ b then 1 else 0 := by
    simp only [decide_eq_true_eq]
  rw [← hflag]
  rfl

end Operation

end ScratchMachine
