import ScratchMachine.Proofs.Moves

/-!
# The limits of the machine

A machine refuses to begin an operation that it cannot afford, and to enter a code object that lies too deep.  Apart
from that its limits change nothing: they only ever cut a run short.

* `Machine.charge_eq_ok`: what it takes to begin an operation.
* `Machine.step_of_affords`, `Machine.step_of_not_affords`: a move with the limits settled.
* `Machine.step_within`, `Progress.after_within`: a machine with more room makes the same moves.
* `wider_machine_agrees`: a run that ends, and not by a limit, ends in the same way with more room.
-/

namespace ScratchMachine

open Progress

namespace Machine

/-! ### What the machine can afford -/

/-- The limits allow the run one more operation. -/
structure Affords (m : Machine) (e : Execution) : Prop where
  steps : ∀ limit, m.steps = some limit → e.steps < limit
  stack : e.memory.stack.length ≤ m.stackSize

variable {m m' : Machine} {p : Program} {e e' : Execution}

theorem charge_eq_ok : m.charge e = .ok e' ↔ m.Affords e ∧ e' = { e with steps := e.steps + 1 } := by
  have hstack : (do
      if m.stackSize < e.memory.stack.length then throw (Fault.stackLimit m.stackSize)
      return { e with steps := e.steps + 1 } : Except Fault Execution) = .ok e' ↔
      e.memory.stack.length ≤ m.stackSize ∧ e' = { e with steps := e.steps + 1 } := by
    by_cases hlt : m.stackSize < e.memory.stack.length
    · rw [if_pos hlt]
      constructor
      · intro h
        cases h
      · intro h
        omega
    · rw [if_neg hlt]
      constructor
      · intro h
        cases h
        exact ⟨by omega, rfl⟩
      · rintro ⟨-, rfl⟩
        rfl
  unfold charge
  cases hsteps : m.steps with
  | none =>
    have hany : m.Affords e ↔ e.memory.stack.length ≤ m.stackSize :=
      ⟨fun h => h.stack, fun h => ⟨by simp [hsteps], h⟩⟩
    rw [hany]
    exact hstack
  | some limit =>
    dsimp only
    by_cases hlt : limit < e.steps + 1
    · rw [if_pos hlt]
      constructor
      · intro h
        cases h
      · rintro ⟨hafford, -⟩
        have := hafford.steps limit hsteps
        omega
    · have hany : m.Affords e ↔ e.memory.stack.length ≤ m.stackSize := by
        refine ⟨fun h => h.stack, fun h => ⟨fun limit' heq => ?_, h⟩⟩
        have : limit' = limit := Option.some.inj (heq.symm.trans hsteps)
        omega
      rw [if_neg hlt, hany]
      exact hstack

instance : Decidable (m.Affords e) :=
  decidable_of_iff ((∀ limit ∈ m.steps, e.steps < limit) ∧ e.memory.stack.length ≤ m.stackSize)
    ⟨fun h => ⟨h.1, h.2⟩, fun h => ⟨h.steps, h.stack⟩⟩

/-- A limit ends a run that has an operation to execute and cannot afford it. -/
theorem step_of_not_affords {op : Operation} (hop : e.next? = some op) (h : ¬ m.Affords e) :
    ∃ fault, fault.isLimit = true ∧ m.step p e = e.fail fault := by
  unfold Execution.next? at hop
  unfold step
  rw [hop]
  rcases m.charge_cases e with ⟨fault, hcharge, hlimit⟩ | hcharge
  · rw [hcharge]
    exact ⟨fault, hlimit, rfl⟩
  · exact absurd (charge_eq_ok.1 hcharge).1 h

/-- What a move makes of the answer of its operation. -/
def conclude (m : Machine) (p : Program) (e : Execution) : Except Fault Continuation × Memory → Progress
  | (.error fault, memory) => { e with memory, steps := e.steps + 1 }.fail fault
  | (.ok c, memory) => m.proceed p { e with memory, steps := e.steps + 1 } c

theorem step_of_affords {op : Operation} (hop : e.next? = some op) (h : m.Affords e) :
    m.step p e = m.conclude p e (op.execute.run.run e.memory) := by
  unfold Execution.next? at hop
  unfold step
  rw [hop, charge_eq_ok.2 ⟨h, rfl⟩]
  dsimp only
  rcases op.execute.run.run e.memory with ⟨fault | c, memory⟩
  · rfl
  · rfl

/-! ### More room -/

/-- The machine has at most the room that another has, and the same number of slots. -/
structure Within (m m' : Machine) : Prop where
  slotCount_eq : m'.slotCount = m.slotCount
  callDepth_le : m.callDepth ≤ m'.callDepth
  stackSize_le : m.stackSize ≤ m'.stackSize
  steps_le : ∀ limit', m'.steps = some limit' → ∃ limit, m.steps = some limit ∧ limit ≤ limit'

theorem Affords.within (h : m.Affords e) (hw : m.Within m') : m'.Affords e := by
  constructor
  · intro limit' hlimit'
    obtain ⟨limit, hlimit, hle⟩ := hw.steps_le limit' hlimit'
    have := h.steps limit hlimit
    omega
  · have := h.stack
    have := hw.stackSize_le
    omega

theorem enter_within (hw : m.Within m') (code : CodeObject) (callers : List Frame) (memory : Memory) (steps : Nat) :
    (m.enter code callers memory steps).Limited ∨
      m'.enter code callers memory steps = m.enter code callers memory steps := by
  have hle := hw.callDepth_le
  unfold enter
  by_cases hlt : callers.length < m.callDepth
  · right
    rw [if_pos hlt, if_pos (by omega)]
  · left
    rw [if_neg hlt]
    exact rfl

theorem proceed_within (hw : m.Within m') (c : Continuation) :
    (m.proceed p e c).Limited ∨ m'.proceed p e c = m.proceed p e c := by
  cases c with
  | call id =>
    cases hcode : p.subroutine? id with
    | none =>
      right
      rw [proceed, proceed, hcode]
    | some code =>
      rw [proceed, proceed, hcode]
      exact enter_within hw ..
  | _ => exact .inr rfl

/-- A machine with more room makes the same move, unless a limit ends the run. -/
theorem step_within (hw : m.Within m') (p : Program) (e : Execution) :
    (m.step p e).Limited ∨ m'.step p e = m.step p e := by
  cases hop : e.next? with
  | none =>
    right
    rw [m.step_finish p hop, m'.step_finish p hop]
  | some op =>
    by_cases haff : m.Affords e
    · rw [step_of_affords hop haff, step_of_affords hop (haff.within hw)]
      rcases op.execute.run.run e.memory with ⟨fault | c, memory⟩
      · exact .inr rfl
      · exact proceed_within hw c
    · obtain ⟨fault, hlimit, hstep⟩ := step_of_not_affords (p := p) hop haff
      left
      rw [hstep]
      exact hlimit

theorem start_within (hw : m.Within m') (p : Program) : (m.start p).Limited ∨ m'.start p = m.start p := by
  unfold start
  rw [hw.slotCount_eq]
  dsimp only
  split
  · exact .inr rfl
  · split
    · exact .inr rfl
    · exact enter_within hw ..

end Machine

/-! ### Runs -/

/-- A machine with more room makes the same moves, until a limit ends the run. -/
theorem Progress.after_within {m m' : Machine} (hw : m.Within m') (p : Program) (n : Nat) (r : Progress) :
    (r.after m p n).Limited ∨ r.after m' p n = r.after m p n := by
  induction n generalizing r with
  | zero => exact .inr rfl
  | succ n ih =>
    cases r with
    | ended outcome memory => exact .inr rfl
    | running e =>
      rw [after, after]
      rcases Machine.step_within hw p e with hlim | hstep
      · exact .inl (limited_after hlim n)
      · rw [hstep]
        exact ih _

/-- Limits only ever cut a run short: a run that ends, and not by a limit, ends on any machine with more room too,
after as many moves, with the same outcome and the same memory. -/
theorem wider_machine_agrees {m m' : Machine} (hw : m.Within m') {p : Program} {n : Nat} {outcome : Outcome}
    {memory : Memory} (hend : (m.start p).after m p n = ended outcome memory)
    (hlimit : ∀ error, outcome = .error error → error.fault.isLimit = false) :
    (m'.start p).after m' p n = ended outcome memory := by
  have hfree : ¬ (ended outcome memory).Limited := by
    cases outcome with
    | ok exit => exact not_false
    | error error => simp [Limited, hlimit error rfl]
  have hstart : m'.start p = m.start p := by
    rcases Machine.start_within hw p with hlim | heq
    · have := limited_after (m := m) (p := p) hlim n
      rw [hend] at this
      exact absurd this hfree
    · exact heq
  rcases after_within hw p n (m.start p) with hlim | heq
  · rw [hend] at hlim
    exact absurd hlim hfree
  · rw [hstart, heq, hend]

namespace Dividing

/-- The main code object has a subroutine divide by zero. -/
def program : Program where
  code := [⟨"main", #[.int 7, .callsub ⟨0⟩, .ret]⟩, ⟨"divide", #[.int 0, .div, .retsub]⟩]
  subroutines := .ofList [(⟨0⟩, 1)]

/-- Just enough room for the program to come to the division. -/
def tight : Machine := { callDepth := 2, steps := some 4, stackSize := 2, slotCount := 1 }

def roomy : Machine := { callDepth := 3, stackSize := 9, slotCount := 1 }

end Dividing

open Dividing in
/-- With one operation less a limit ends the run; with more room it ends as it does with just enough. -/
theorem wider_machine_agrees_dividing :
    (({ tight with steps := some 3 }.start program).after { tight with steps := some 3 } program 4).Limited ∧
      (tight.start program).after tight program 4 = ended (.error ⟨.divisionByZero, ["divide", "main"]⟩) ⟨[], #[.uint 0]⟩ ∧
      (roomy.start program).after roomy program 4 = ended (.error ⟨.divisionByZero, ["divide", "main"]⟩) ⟨[], #[.uint 0]⟩ := by
  have hwithin : tight.Within roomy := ⟨rfl, by decide, by decide, by simp [roomy]⟩
  have htight : (tight.start program).after tight program 4 =
      ended (.error ⟨.divisionByZero, ["divide", "main"]⟩) ⟨[], #[.uint 0]⟩ := rfl
  have hlimited : (({ tight with steps := some 3 }.start program).after
      { tight with steps := some 3 } program 4).Limited := rfl
  exact ⟨hlimited, htight, wider_machine_agrees hwithin htight (by simp [Fault.isLimit])⟩

end ScratchMachine
