import ScratchMachine.Proofs.Limits

/-!
# What a run uses

The limits of a machine hold at every moment of every run, whatever the program: too few code objects are active for
the depth of calls to be exceeded, the stack is at most one value above its limit, since no operation adds more than
one, and a limit on the operations ends the run.

* `Operation.execute_extends`: what an operation can add to memory.
* `Progress.fits_step`: a move keeps memory and the active code objects within the limits.
* `Progress.executed`: how many operations the first moves of a run execute.
* `run_within_limits`: the limits hold at every moment, and a limit on the operations ends the run.
-/

namespace ScratchMachine

open Effect Progress

/-! ### What an operation adds -/

namespace Effect

variable {α β : Type}

/-- The effect adds at most so many values to the stack, and no slots, also when it fails. -/
def Extends (x : Effect α) (count : Nat) : Prop :=
  ∀ mem, (x.run.run mem).2.stack.length ≤ mem.stack.length + count ∧
    (x.run.run mem).2.scratch.size = mem.scratch.size

theorem extends_pure (a : α) (count : Nat) : (pure a : Effect α).Extends count := by
  intro mem
  exact ⟨Nat.le_add_right .., rfl⟩

theorem extends_throw (fault : Fault) (count : Nat) : (throw fault : Effect α).Extends count := by
  intro mem
  exact ⟨Nat.le_add_right .., rfl⟩

theorem extends_get (count : Nat) : (get : Effect Memory).Extends count := by
  intro mem
  exact ⟨Nat.le_add_right .., rfl⟩

theorem extends_lift (x : Except Fault α) (count : Nat) : (liftM x : Effect α).Extends count := by
  cases x with
  | error fault => exact extends_throw fault count
  | ok a => exact extends_pure a count

theorem Extends.bind {x : Effect α} {k : α → Effect β} {count count' : Nat} (hx : x.Extends count)
    (hk : ∀ a, (k a).Extends count') : (x >>= k).Extends (count + count') := by
  intro mem
  have hfirst := hx mem
  rw [Fallible.run_bind]
  rcases hrun : x.run.run mem with ⟨fault | a, mid⟩
  · rw [hrun] at hfirst
    dsimp only at hfirst ⊢
    exact ⟨by omega, hfirst.2⟩
  · rw [hrun] at hfirst
    have hsecond := hk a mid
    dsimp only at hfirst ⊢
    exact ⟨by omega, hsecond.2.trans hfirst.2⟩

/-- An effect that comes after one that adds nothing. -/
theorem Extends.andThen {x : Effect α} {k : α → Effect β} {count : Nat} (hx : x.Extends 0)
    (hk : ∀ a, (k a).Extends count) : (x >>= k).Extends count := by
  have h := hx.bind hk
  rwa [Nat.zero_add] at h

/-- An effect after which nothing is added. -/
theorem Extends.finish {x : Effect α} {k : α → Effect β} {count : Nat} (hx : x.Extends count)
    (hk : ∀ a, (k a).Extends 0) : (x >>= k).Extends count := hx.bind hk

theorem extends_push (v : Value) : (push v).Extends 1 := by
  intro mem
  exact ⟨Nat.le_refl _, rfl⟩

theorem extends_pop : pop.Extends 0 := by
  intro mem
  obtain ⟨stack, scratch⟩ := mem
  cases stack with
  | nil => exact ⟨Nat.le_refl _, rfl⟩
  | cons v rest => exact ⟨Nat.le_succ _, rfl⟩

theorem extends_popInteger : popInteger.Extends 0 := by
  apply extends_pop.andThen
  intro v
  cases v with
  | uint n => exact extends_pure n 0
  | bytes b => exact extends_throw _ 0

theorem extends_combine (f : UInt64 → UInt64 → Except Fault UInt64) : (combine f).Extends 1 := by
  have hrest : (do
      let b ← popInteger
      let a ← popInteger
      push (.uint (← f a b)) : Effect Unit).Extends 1 := by
    apply extends_popInteger.andThen
    intro b
    apply extends_popInteger.andThen
    intro a
    apply (extends_lift _ 0).andThen
    intro n
    exact extends_push _
  apply (extends_get 0).andThen
  intro mem
  split
  · exact hrest
  · exact (extends_throw _ 0).andThen fun _ => hrest

theorem extends_compare (expected : Bool) : (compare expected).Extends 1 := by
  apply extends_pop.andThen
  intro b
  apply extends_pop.andThen
  intro a
  split
  · exact (extends_throw _ 0).andThen fun _ => extends_push _
  · exact extends_push _

theorem extends_requireSlot (index : UInt64) : (requireSlot index).Extends 0 := by
  apply (extends_get 0).andThen
  intro mem
  dsimp only
  split
  · exact extends_pure _ 0
  · exact extends_throw _ 0

theorem extends_readSlot (index : UInt64) : (readSlot index).Extends 1 := by
  apply (extends_requireSlot index).andThen
  intro _
  apply (extends_get 0).andThen
  intro mem
  exact extends_push _

theorem extends_writeSlot (index : UInt64) (v : Value) : (writeSlot index v).Extends 0 := by
  apply (extends_requireSlot index).andThen
  intro _ mem
  exact ⟨Nat.le_refl _, Array.size_setIfInBounds ..⟩

end Effect

/-- No operation adds more than one value to the stack, or changes the number of slots. -/
theorem Operation.execute_extends (op : Operation) : op.execute.Extends 1 := by
  have hanswer : ∀ c : Continuation, (pure c : Effect Continuation).Extends 0 := fun c => extends_pure c 0
  cases op with
  | int n => exact (extends_push _).finish fun _ => hanswer _
  | byte b => exact (extends_push _).finish fun _ => hanswer _
  | pop =>
    have hdiscard : (discard Effect.pop : Effect Unit).Extends 0 := extends_pop.andThen fun _ => extends_pure _ 0
    exact hdiscard.andThen fun _ => extends_pure _ 1
  | eq => exact (extends_compare _).finish fun _ => hanswer _
  | ne => exact (extends_compare _).finish fun _ => hanswer _
  | not => exact extends_popInteger.andThen fun _ => (extends_push _).finish fun _ => hanswer _
  | load slot => exact (extends_readSlot slot).finish fun _ => hanswer _
  | store slot => exact extends_pop.andThen fun v => (extends_writeSlot slot v).andThen fun _ => extends_pure _ 1
  | loads => exact extends_popInteger.andThen fun slot => (extends_readSlot slot).finish fun _ => hanswer _
  | stores =>
    exact extends_pop.andThen fun v => extends_popInteger.andThen fun slot =>
      (extends_writeSlot slot v).andThen fun _ => extends_pure _ 1
  | jump offset => exact extends_pure _ 1
  | jumpIfFalse offset => exact extends_popInteger.andThen fun _ => extends_pure _ 1
  | switch offsets => exact extends_popInteger.andThen fun _ => extends_pure _ 1
  | callsub id => exact extends_pure _ 1
  | retsub => exact extends_pure _ 1
  | ret => exact extends_pop.andThen fun _ => extends_pure _ 1
  | err => exact extends_throw _ 1
  | _ =>
    -- what is left are the operations on two integers
    exact (extends_combine _).finish fun _ => hanswer _

/-! ### What a move keeps -/

/-- Memory is as large as a machine lets it become. -/
structure Memory.Fits (m : Machine) (mem : Memory) : Prop where
  stack : mem.stack.length ≤ m.stackSize + 1
  scratch : mem.scratch.size = m.slotCount

namespace Progress

/-- The code objects that are active in a run are as many as a machine lets there be, and so is its memory as large. -/
def Fits (m : Machine) : Progress → Prop
  | running e => e.frames.length ≤ m.callDepth ∧ e.memory.Fits m
  | ended _ memory => memory.Fits m

variable {m : Machine} {p : Program} {e : Execution}

theorem fits_enter {memory : Memory} (hmemory : memory.Fits m) (code : CodeObject) (callers : List Frame)
    (steps : Nat) : (m.enter code callers memory steps).Fits m := by
  unfold Machine.enter
  by_cases hlt : callers.length < m.callDepth
  · rw [if_pos hlt]
    exact ⟨hlt, hmemory⟩
  · rw [if_neg hlt]
    exact hmemory

theorem fits_proceed (h : (running e).Fits m) (c : Continuation) : (m.proceed p e c).Fits m := by
  obtain ⟨hframes, hmemory⟩ := h
  cases c with
  | advance => exact ⟨hframes, hmemory⟩
  | jump offset =>
    unfold Machine.proceed
    dsimp only
    split
    · exact ⟨hframes, hmemory⟩
    · exact hmemory
  | call id =>
    cases hcode : p.subroutine? id with
    | none =>
      rw [Machine.proceed, hcode]
      exact hmemory
    | some code =>
      rw [Machine.proceed, hcode]
      exact fits_enter hmemory ..
  | leave =>
    unfold Machine.proceed
    cases hcallers : e.callers with
    | nil => exact hmemory
    | cons caller callers =>
      have hlength : e.frames.length = callers.length + 2 := by simp [Execution.frames, hcallers]
      have hfewer : callers.length + 1 ≤ m.callDepth := by omega
      exact ⟨hfewer, hmemory⟩
  | halt exit => exact hmemory

/-- A move keeps memory and the active code objects within the limits: an operation is begun only while the stack is
within its limit, and adds at most one value. -/
theorem fits_step (p : Program) (h : (running e).Fits m) : (m.step p e).Fits m := by
  obtain ⟨hframes, hmemory⟩ := h
  cases hop : e.next? with
  | none =>
    rw [m.step_finish p hop]
    unfold Execution.finish
    split
    · exact hmemory
    · exact hmemory
  | some op =>
    by_cases haff : m.Affords e
    · have hadds := op.execute_extends e.memory
      have hstack := haff.stack
      have hscratch := hmemory.scratch
      have hfits : (op.execute.run.run e.memory).2.Fits m := ⟨by omega, by omega⟩
      rw [Machine.step_of_affords hop haff]
      rcases hrun : op.execute.run.run e.memory with ⟨fault | c, memory⟩
      · rw [hrun] at hfits
        exact hfits
      · rw [hrun] at hfits
        exact fits_proceed (e := { e with memory, steps := e.steps + 1 }) ⟨hframes, hfits⟩ c
    · obtain ⟨fault, -, hstep⟩ := Machine.step_of_not_affords (p := p) hop haff
      rw [hstep]
      exact hmemory

theorem fits_start (m : Machine) (p : Program) : (m.start p).Fits m := by
  have hblank : (Memory.blank m.slotCount).Fits m := ⟨Nat.zero_le _, Array.size_replicate ..⟩
  unfold Machine.start
  dsimp only
  split
  · exact hblank
  · split
    · exact hblank
    · exact fits_enter hblank ..

theorem fits_after {r : Progress} (h : r.Fits m) (n : Nat) : (r.after m p n).Fits m := by
  induction n generalizing r with
  | zero => exact h
  | succ n ih =>
    cases r with
    | ended outcome memory => exact h
    | running e => exact ih (fits_step p h)

/-! ### The operations that a run executes -/

/-- The next move of the run executes an operation: there is one, and no limit refuses it. -/
def Executes (m : Machine) : Progress → Prop
  | running e => e.next?.isSome ∧ m.Affords e
  | ended _ _ => False

instance (m : Machine) : DecidablePred (Executes m)
  | running e => inferInstanceAs (Decidable (e.next?.isSome ∧ m.Affords e))
  | ended _ _ => inferInstanceAs (Decidable False)

/-- How many operations the first moves of a run execute. -/
def executed (m : Machine) (p : Program) (r : Progress) (n : Nat) : Nat :=
  (List.range n).countP fun k => (r.after m p k).Executes m

theorem executed_succ (m : Machine) (p : Program) (r : Progress) (n : Nat) :
    r.executed m p (n + 1) = r.executed m p n + if (r.after m p n).Executes m then 1 else 0 := by
  simp [executed, List.range_succ, List.countP_append, List.countP_singleton]

end Progress

/-- A move after which the run goes on has begun one operation. -/
theorem Machine.Moves.steps_eq {p : Program} {e e' : Execution} (h : Moves p e e') : e'.steps = e.steps + 1 := by
  cases h <;> rfl

namespace Progress

variable {m : Machine} {p : Program} {e : Execution}

/-- A run has begun an operation in each of its moves. -/
theorem steps_of_after {n : Nat} (h : (m.start p).after m p n = running e) : e.steps = n := by
  induction n generalizing e with
  | zero =>
    obtain ⟨main, -, hstart⟩ := running_of_start h
    rw [hstart] at h
    cases h
    rfl
  | succ n ih =>
    obtain ⟨mid, hmid, hmoves⟩ := running_of_after_succ h
    rw [hmoves.steps_eq, ih hmid]

variable {limit : Nat}

/-- A limit on the operations allows them to the moves below it only. -/
theorem lt_of_executes (hlimit : m.steps = some limit) {n : Nat} (h : ((m.start p).after m p n).Executes m) :
    n < limit := by
  cases hafter : (m.start p).after m p n with
  | ended outcome memory =>
    rw [hafter] at h
    exact h.elim
  | running e =>
    rw [hafter] at h
    have hsteps := steps_of_after hafter
    have hlt := h.2.steps limit hlimit
    omega

theorem executed_le (hlimit : m.steps = some limit) (n : Nat) :
    (m.start p).executed m p n ≤ n ∧ (m.start p).executed m p n ≤ limit := by
  induction n with
  | zero => exact ⟨Nat.zero_le _, Nat.zero_le _⟩
  | succ n ih =>
    rw [executed_succ]
    by_cases hexec : ((m.start p).after m p n).Executes m
    · have hlt := lt_of_executes hlimit hexec
      rw [if_pos hexec]
      omega
    · rw [if_neg hexec]
      omega

/-- A run that is not over with the last operation that the limit allows is over with the next move. -/
theorem ended_of_limit (hlimit : m.steps = some limit) :
    ∃ outcome memory, (m.start p).after m p (limit + 1) = ended outcome memory := by
  cases hafter : (m.start p).after m p (limit + 1) with
  | ended outcome memory => exact ⟨outcome, memory, rfl⟩
  | running e =>
    exfalso
    obtain ⟨mid, hmid, hmoves⟩ := running_of_after_succ hafter
    have hstep : m.step p mid = running e := by
      rw [after_succ, hmid] at hafter
      exact hafter
    cases hop : mid.next? with
    | none =>
      have hfinish := m.step_finish p hop
      rw [hstep] at hfinish
      unfold Execution.finish at hfinish
      split at hfinish <;> cases hfinish
    | some op =>
      have haff : ¬ m.Affords mid := by
        intro haff
        have hlt := lt_of_executes (p := p) (n := limit) hlimit (by rw [hmid]; exact ⟨by simp [hop], haff⟩)
        omega
      obtain ⟨fault, -, hfail⟩ := Machine.step_of_not_affords (p := p) hop haff
      rw [hstep] at hfail
      cases hfail

end Progress

/-- At every moment of a run the limits of the machine hold: no more code objects are active than the depth of calls
allows, the stack is at most one value above its limit, and there are as many slots as the machine has.  With a limit
on the operations every run ends, and executes no more of them. -/
theorem run_within_limits (m : Machine) (p : Program) :
    (∀ n, ((m.start p).after m p n).Fits m) ∧
      ∀ limit, m.steps = some limit →
        (∃ outcome memory, (m.start p).after m p (limit + 1) = ended outcome memory) ∧
          ∀ n, (m.start p).executed m p n ≤ limit := by
  constructor
  · intro n
    exact fits_after (fits_start m p) n
  · intro limit hlimit
    exact ⟨ended_of_limit hlimit, fun n => (executed_le hlimit n).2⟩

namespace Spinning

/-- A subroutine that calls itself before it does anything else. -/
def program : Program where
  code := [⟨"main", #[.int 1, .callsub ⟨0⟩]⟩, ⟨"spin", #[.callsub ⟨0⟩, .jump (-7)]⟩]
  subroutines := .ofList [(⟨0⟩, 1)]

def machine : Machine := { callDepth := 9, steps := some 5, stackSize := 0, slotCount := 2 }

/-- The same machine with room on the stack for what the program pushes. -/
def roomy : Machine := { machine with stackSize := 1 }

end Spinning

open Spinning in
/-- A program that would call without end comes to the limit on the operations, and one that pushes a value above the
limit of the stack comes to that limit. -/
theorem run_within_limits_spinning :
    (∃ outcome memory, (roomy.start program).after roomy program 6 = ended outcome memory) ∧
      (roomy.start program).executed roomy program 6 = 5 ∧
      ((machine.start program).after machine program 1).Fits machine ∧
      (machine.start program).executed machine program 6 = 1 := by
  obtain ⟨-, hlimit⟩ := run_within_limits roomy program
  obtain ⟨hends, -⟩ := hlimit 5 rfl
  obtain ⟨hfits, -⟩ := run_within_limits machine program
  exact ⟨hends, by decide, hfits 1, by decide⟩

end ScratchMachine
