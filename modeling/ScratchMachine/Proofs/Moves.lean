import ScratchMachine.Proofs.Effects
import ScratchMachine.Proofs.MachineRun

/-!
# Moves of the machine

What one move does is said once, for all that is proved by following a run from move to move.

* `Machine.Moves`: the moves after which a run goes on.
* `Machine.Fails`: why a run fails, and which frames the error names.
* `Machine.stepsTo_step`: a move is one of these, or ends the program.
* `Progress.keeps_of_moves`: what every move keeps, a run keeps.
* `Progress.scratch_of_after`: a slot that no move sets keeps its value.
* `Program.code_of_after`: all code that is ever active belongs to the program.
-/

namespace ScratchMachine

open Progress

/-- The operation that the next move executes, if there is one. -/
def Execution.next? (e : Execution) : Option Operation := e.current.code.ops[e.current.position]?

/-- The slot that the next move sets, if it sets one. -/
def Execution.target? (e : Execution) : Option UInt64 := e.next?.bind (·.target? e.memory)

namespace Machine

/-- A move after which the run goes on: to the operation that follows, along a jump, into a subroutine, or back to
the caller. -/
inductive Moves (p : Program) (e : Execution) : Execution → Prop
  | advance {op : Operation} {memory : Memory} : e.next? = some op →
      op.execute.run.run e.memory = (.ok .advance, memory) →
      Moves p e ⟨⟨e.current.code, e.current.position + 1⟩, e.callers, memory, e.steps + 1⟩
  | jump {op : Operation} {offset : Int32} {memory : Memory} : e.next? = some op →
      op.execute.run.run e.memory = (.ok (.jump offset), memory) →
      Moves p e ⟨⟨e.current.code, (e.current.position + offset.toInt).toNat⟩, e.callers, memory, e.steps + 1⟩
  | call {id : SubroutineId} {code : CodeObject} : e.next? = some (.callsub id) → p.subroutine? id = some code →
      Moves p e ⟨⟨code, 0⟩, ⟨e.current.code, e.current.position + 1⟩ :: e.callers, e.memory, e.steps + 1⟩
  | leave {caller : Frame} {callers : List Frame} : e.next? = some .retsub → e.callers = caller :: callers →
      Moves p e ⟨caller, callers, e.memory, e.steps + 1⟩

variable {m : Machine} {p : Program} {e e' : Execution} {slot : UInt64} {id : SubroutineId}

/-- The next move ends the run by a fault, and the error names the code objects of the given frames. -/
inductive Fails (m : Machine) (p : Program) (e : Execution) : Fault → List Frame → Prop
  /-- The limits do not allow the operation to begin. -/
  | limit {op : Operation} {fault : Fault} : e.next? = some op → m.charge e = .error fault → Fails m p e fault e.frames
  /-- The operation itself fails. -/
  | operation {op : Operation} {fault : Fault} {memory : Memory} : e.next? = some op →
      op.execute.run.run e.memory = (.error fault, memory) → Fails m p e fault e.frames
  /-- A jump leads out of the code object. -/
  | astray {op : Operation} {offset : Int32} {memory : Memory} : e.next? = some op →
      op.execute.run.run e.memory = (.ok (.jump offset), memory) →
      ¬ (0 ≤ e.current.position + offset.toInt ∧ e.current.position + offset.toInt ≤ e.current.code.ops.size) →
      Fails m p e (.jumpOutOfBounds e.current.position offset) e.frames
  /-- The called subroutine is not there. -/
  | undefined {id : SubroutineId} : e.next? = some (.callsub id) → p.subroutine? id = none →
      Fails m p e (.undefinedSubroutine id) e.frames
  /-- With the called subroutine too many code objects would be active. -/
  | tooDeep {id : SubroutineId} {code : CodeObject} : e.next? = some (.callsub id) → p.subroutine? id = some code →
      m.callDepth ≤ e.frames.length → Fails m p e (.depthLimit m.callDepth code.name) e.frames
  /-- The main code object executes `retsub`. -/
  | stray : e.next? = some .retsub → e.callers = [] → Fails m p e .strayRetsub e.frames
  /-- A subroutine has come past its last operation. -/
  | runOut {caller : Frame} {callers : List Frame} : e.next? = none → e.callers = caller :: callers →
      Fails m p e (.missingRetsub e.current.code.name) e.callers

/-- What a move comes to: a run that goes on, the end of the program, or a failure. -/
inductive StepsTo (m : Machine) (p : Program) (e : Execution) : Progress → Prop
  | moves {e' : Execution} : Moves p e e' → StepsTo m p e (.running e')
  | done {exit : Option Value} {memory : Memory} : StepsTo m p e (.ended (.ok exit) memory)
  | failed {fault : Fault} {frames : List Frame} {memory : Memory} : Fails m p e fault frames →
      StepsTo m p e (.ended (.error ⟨fault, Frame.names frames⟩) memory)

theorem stepsTo_finish (hop : e.next? = none) : StepsTo m p e e.finish := by
  unfold Execution.finish
  split
  · exact .done
  · rename_i caller callers hcallers
    exact .failed (.runOut hop hcallers)

theorem stepsTo_proceed {op : Operation} {c : Continuation} {memory : Memory} (hop : e.next? = some op)
    (hrun : op.execute.run.run e.memory = (.ok c, memory)) :
    StepsTo m p e (m.proceed p { e with memory, steps := e.steps + 1 } c) := by
  have hanswer := op.execute_answers e.memory c memory hrun
  unfold proceed
  cases c with
  | advance => exact .moves (.advance hop hrun)
  | jump offset =>
    dsimp only
    split
    · exact .moves (.jump hop hrun)
    · rename_i hrange
      exact .failed (.astray hop hrun hrange)
  | call id =>
    obtain rfl : op = .callsub id := hanswer
    cases hrun
    dsimp only
    split
    · rename_i hcode
      exact .failed (.undefined hop hcode)
    · rename_i code hcode
      unfold enter
      split
      · exact .moves (.call hop hcode)
      · rename_i hdeep
        -- the caller is named by its code object, whatever its position is
        show StepsTo m p e (.ended (.error ⟨_, Frame.names e.frames⟩) _)
        exact .failed (.tooDeep hop hcode (Nat.le_of_not_lt hdeep))
  | leave =>
    obtain rfl : op = .retsub := hanswer
    cases hrun
    dsimp only
    split
    · rename_i hcallers
      exact .failed (.stray hop hcallers)
    · rename_i caller callers hcallers
      exact .moves (.leave hop hcallers)
  | halt v => exact .done

theorem stepsTo_step (m : Machine) (p : Program) (e : Execution) : StepsTo m p e (m.step p e) := by
  cases hop : e.next? with
  | none =>
    rw [m.step_finish p hop]
    exact stepsTo_finish hop
  | some op =>
    unfold step
    rw [show e.current.code.ops[e.current.position]? = some op from hop]
    dsimp only
    rcases m.charge_cases e with ⟨fault, hcharge, -⟩ | hcharge
    · rw [hcharge]
      exact .failed (.limit hop hcharge)
    rw [hcharge]
    dsimp only
    rcases hrun : op.execute.run.run e.memory with ⟨fault | c, memory⟩
    · exact .failed (.operation hop hrun)
    · exact stepsTo_proceed hop hrun

theorem moves_of_step (h : m.step p e = .running e') : Moves p e e' := by
  have hsteps := m.stepsTo_step p e
  rw [h] at hsteps
  cases hsteps with
  | moves hmoves => exact hmoves

theorem fails_of_step {error : RuntimeError} {memory : Memory} (h : m.step p e = .ended (.error error) memory) :
    ∃ frames, m.Fails p e error.fault frames ∧ error.callStack = Frame.names frames := by
  have hsteps := m.stepsTo_step p e
  rw [h] at hsteps
  cases hsteps with
  | failed hfails => exact ⟨_, hfails, rfl⟩

/-- A slot keeps its value in a move that does not set it. -/
theorem Moves.scratch_eq (h : Moves p e e') (htarget : e.target? ≠ some slot) :
    e'.memory.scratch[slot.toNat]? = e.memory.scratch[slot.toNat]? := by
  cases h with
  | @advance op memory hop hrun | @jump op offset memory hop hrun =>
    rw [Execution.target?, hop, Option.bind_some] at htarget
    exact op.scratch_execute hrun htarget
  | call hop hcode => rfl
  | leave hop hcallers => rfl

theorem Moves.of_callsub (h : Moves p e e') (hnext : e.next? = some (.callsub id)) :
    ∃ code, p.subroutine? id = some code ∧
      e' = ⟨⟨code, 0⟩, ⟨e.current.code, e.current.position + 1⟩ :: e.callers, e.memory, e.steps + 1⟩ := by
  cases h with
  | advance hop hrun | jump hop hrun =>
    cases hop.symm.trans hnext
    cases hrun
  | call hop hcode =>
    cases hop.symm.trans hnext
    exact ⟨_, hcode, rfl⟩
  | leave hop hcallers => cases hop.symm.trans hnext

theorem Moves.of_store (h : Moves p e e') (hnext : e.next? = some (.store slot)) :
    ∃ v rest, e.memory.stack = v :: rest ∧ slot.toNat < e.memory.scratch.size ∧
      e' = ⟨⟨e.current.code, e.current.position + 1⟩, e.callers, ⟨rest, e.memory.scratch.setIfInBounds slot.toNat v⟩,
        e.steps + 1⟩ := by
  cases h with
  | advance hop hrun =>
    cases hop.symm.trans hnext
    obtain ⟨v, rest, hstack, hlt, rfl, -⟩ := Operation.execute_store hrun
    exact ⟨v, rest, hstack, hlt, rfl⟩
  | jump hop hrun =>
    cases hop.symm.trans hnext
    obtain ⟨v, rest, -, -, -, hjump⟩ := Operation.execute_store hrun
    cases hjump
  | call hop hcode | leave hop hcallers => cases hop.symm.trans hnext

/-- A run fails for want of a subroutine only at a call of it. -/
theorem step_undefined {error : RuntimeError} {memory : Memory} (h : m.step p e = .ended (.error error) memory)
    (hfault : error.fault = .undefinedSubroutine id) :
    e.next? = some (.callsub id) ∧ p.subroutine? id = none := by
  obtain ⟨frames, hfails, -⟩ := fails_of_step h
  rw [hfault] at hfails
  cases hfails with
  | limit hop hcharge => cases m.isLimit_of_charge hcharge
  | operation hop hrun =>
    have heffect := Operation.fails_execute _ _ _ _ hrun
    cases heffect
  | undefined hop hnone => exact ⟨hop, hnone⟩

theorem start_ne_undefined (m : Machine) (p : Program) (id : SubroutineId) {error : RuntimeError} {memory : Memory}
    (h : m.start p = .ended (.error error) memory) : error.fault ≠ .undefinedSubroutine id := by
  unfold start at h
  dsimp only at h
  split at h
  · cases h
    simp
  split at h
  · cases h
    simp
  · unfold enter at h
    split at h
    · cases h
    · cases h
      simp

end Machine

/-! ### Runs -/

namespace Progress

variable {m : Machine} {p : Program} {r : Progress} {e e' : Execution} {n : Nat}

theorem after_succ (n : Nat) (r : Progress) : r.after m p (n + 1) = (r.after m p n).after m p 1 :=
  after_add n 1 r

/-- A run that goes on after some moves went on after all but the last of them. -/
theorem running_of_after_succ (h : r.after m p (n + 1) = running e') :
    ∃ e, r.after m p n = running e ∧ Machine.Moves p e e' := by
  rw [after_succ] at h
  cases hmid : r.after m p n with
  | running e =>
    rw [hmid, after, after] at h
    exact ⟨e, rfl, Machine.moves_of_step h⟩
  | ended outcome memory =>
    rw [hmid, after_ended] at h
    cases h

theorem running_of_after {k : Nat} (h : r.after m p n = running e') (hk : k ≤ n) : ∃ e, r.after m p k = running e := by
  cases hmid : r.after m p k with
  | running e => exact ⟨e, rfl⟩
  | ended outcome memory => cases (after_of_ended hmid hk).symm.trans h

/-- A run that has ended has ended in one of its moves. -/
theorem step_of_after_ended {outcome : Outcome} {memory : Memory} (h : (running e).after m p n = ended outcome memory) :
    ∃ k e', k < n ∧ (running e).after m p k = running e' ∧ m.step p e' = ended outcome memory := by
  induction n with
  | zero => cases h
  | succ n ih =>
    cases hmid : (running e).after m p n with
    | running e' =>
      rw [after_succ, hmid, after, after] at h
      exact ⟨n, e', Nat.lt_succ_self n, hmid, h⟩
    | ended outcome' memory' =>
      rw [after_succ, hmid, after_ended] at h
      cases h
      obtain ⟨k, e', hk, hrest⟩ := ih hmid
      exact ⟨k, e', Nat.lt_succ_of_lt hk, hrest⟩

/-- What every move keeps, a run keeps. -/
theorem keeps_of_moves {P : Execution → Prop} (hmoves : ∀ e e', Machine.Moves p e e' → P e → P e') (he : P e)
    (h : (running e).after m p n = running e') : P e' := by
  induction n generalizing e' with
  | zero =>
    cases h
    exact he
  | succ n ih =>
    obtain ⟨mid, hmid, hmove⟩ := running_of_after_succ h
    exact hmoves mid e' hmove (ih hmid)

/-- A slot keeps its value in a run that does not set it. -/
theorem scratch_of_after {slot : UInt64} (h : (running e).after m p n = running e')
    (htarget : ∀ k mid, k < n → (running e).after m p k = running mid → mid.target? ≠ some slot) :
    e'.memory.scratch[slot.toNat]? = e.memory.scratch[slot.toNat]? := by
  induction n generalizing e' with
  | zero =>
    cases h
    rfl
  | succ n ih =>
    obtain ⟨mid, hmid, hmoves⟩ := running_of_after_succ h
    rw [hmoves.scratch_eq (htarget n mid (Nat.lt_succ_self n) hmid)]
    exact ih hmid fun k mid hk => htarget k mid (Nat.lt_succ_of_lt hk)

/-- A run begins if the main code object passes the static check and the machine may enter it. -/
theorem start_eq_running {main : CodeObject} (hmain : p.main? = some main)
    (hcheck : checkHeight 0 main.ops.toList = .ok ()) (hdepth : 0 < m.callDepth) :
    m.start p = running ⟨⟨main, 0⟩, [], .blank m.slotCount, 0⟩ := by
  have hroom : ([] : List Frame).length < m.callDepth := hdepth
  rw [Machine.start, hmain]
  dsimp only
  rw [hcheck]
  dsimp only
  rw [Machine.enter, if_pos hroom]

/-- A run begins at the first operation of the main code object. -/
theorem running_of_start {n : Nat} (h : (m.start p).after m p n = running e) :
    ∃ main, p.main? = some main ∧ m.start p = running ⟨⟨main, 0⟩, [], .blank m.slotCount, 0⟩ := by
  obtain ⟨e₀, hstart⟩ := running_of_after h (Nat.zero_le n)
  rw [after] at hstart
  have hrunning := hstart
  unfold Machine.start at hrunning
  dsimp only at hrunning
  split at hrunning
  · cases hrunning
  rename_i main hmain
  split at hrunning
  · cases hrunning
  unfold Machine.enter at hrunning
  split at hrunning
  · cases hrunning
    exact ⟨main, hmain, hstart⟩
  · cases hrunning

end Progress

/-! ### Active code -/

namespace Program

variable {m : Machine} {p : Program} {e e' : Execution}

theorem mem_code_of_subroutine? {id : SubroutineId} {code : CodeObject} (h : p.subroutine? id = some code) :
    code ∈ p.code := by
  obtain ⟨index, -, hcode⟩ := Option.bind_eq_some_iff.1 h
  exact List.mem_of_getElem? hcode

theorem code_of_moves (h : Machine.Moves p e e') (he : ∀ f ∈ e.frames, f.code ∈ p.code) :
    ∀ f ∈ e'.frames, f.code ∈ p.code := by
  obtain ⟨hcurrent, hcallers⟩ := List.forall_mem_cons.1 he
  cases h with
  | advance hop hrun => exact List.forall_mem_cons.2 ⟨hcurrent, hcallers⟩
  | jump hop hrun => exact List.forall_mem_cons.2 ⟨hcurrent, hcallers⟩
  | call hop hcode =>
    exact List.forall_mem_cons.2 ⟨mem_code_of_subroutine? hcode, List.forall_mem_cons.2 ⟨hcurrent, hcallers⟩⟩
  | leave hop heq =>
    rw [heq] at hcallers
    exact hcallers

/-- All code that is ever active belongs to the program. -/
theorem code_of_after {n : Nat} (h : (m.start p).after m p n = running e) : ∀ f ∈ e.frames, f.code ∈ p.code := by
  obtain ⟨main, hmain, hstart⟩ := running_of_start h
  rw [hstart] at h
  refine keeps_of_moves (P := fun e => ∀ f ∈ e.frames, f.code ∈ p.code) (fun _ _ => code_of_moves) ?_ h
  intro f hf
  obtain rfl := List.mem_singleton.1 hf
  exact List.mem_of_head? hmain

end Program

end ScratchMachine
