import ScratchMachine.Machine
import ScratchMachine.Proofs.CodeRun

/-!
# Runs of the machine

The machine keeps the active code objects as a list of frames, whereas `CodeObject.Runs` describes what one code
object does with the behaviour of its calls as a parameter.  The two agree up to the limits of the machine.

* `CodeObject.leads_of_runs`: the machine does what a code object can do, unless a limit ends the run.
* `CodeObject.runs_of_surfaced`: what the machine does with a code object, the code object can do.
-/

namespace ScratchMachine

open Behaviour

/-- Whether the fault is a limit of the machine. -/
def Fault.isLimit : Fault → Bool
  | stepLimit _ | stackLimit _ | depthLimit .. => true
  | _ => false

namespace Progress

/-- A limit of the machine has ended the run. -/
def Limited : Progress → Prop
  | ended (.error error) _ => error.fault.isLimit = true
  | _ => False

/-- Fewer than `depth` code objects wait for the one that runs, or none runs any more. -/
def Surfaced (depth : Nat) : Progress → Prop
  | running e => e.callers.length < depth
  | ended _ _ => True

/-- What becomes of a run when control leaves its innermost code object. -/
def departing (code : CodeObject) (callers : List Frame) (memory : Memory) (steps : Nat) : Flow → Progress
  | .done => (Execution.mk ⟨code, 0⟩ callers memory steps).finish
  | .leave =>
    match callers with
    | [] => (Execution.mk ⟨code, 0⟩ [] memory steps).fail .strayRetsub
    | caller :: callers => running ⟨caller, callers, memory, steps⟩
  | .halt exit => ended (.ok (some exit)) memory
  | .fault error => ended (.error ⟨error.fault, error.callStack ++ code.name :: Frame.names callers⟩) memory

/-- The run comes to a point of the given kind, or a limit ends it before that. -/
def Leads (m : Machine) (p : Program) (r : Progress) (goal : Progress → Prop) : Prop :=
  ∃ n, (r.after m p n).Limited ∨ goal (r.after m p n)

variable {m : Machine} {p : Program} {r : Progress} {e : Execution}

/-! ### Several moves -/

@[simp] theorem after_ended (n : Nat) (outcome : Outcome) (memory : Memory) :
    after m p n (ended outcome memory) = ended outcome memory := by
  cases n <;> rfl

theorem after_add (k n : Nat) (r : Progress) : after m p (k + n) r = after m p n (after m p k r) := by
  induction k generalizing r with
  | zero => rw [Nat.zero_add, after]
  | succ k ih =>
    rw [Nat.succ_add]
    cases r with
    | running e =>
      rw [after, after]
      exact ih _
    | ended outcome memory => simp

theorem after_of_ended {k n : Nat} {outcome : Outcome} {memory : Memory} (h : r.after m p k = ended outcome memory)
    (hle : k ≤ n) : r.after m p n = ended outcome memory := by
  obtain ⟨rest, rfl⟩ := Nat.exists_eq_add_of_le hle
  rw [after_add, h, after_ended]

theorem limited_after (h : r.Limited) (n : Nat) : (r.after m p n).Limited := by
  cases r with
  | running e => exact h.elim
  | ended outcome memory => rwa [after_ended]

theorem Surfaced.mono {depth depth' : Nat} (h : r.Surfaced depth) (hle : depth ≤ depth') : r.Surfaced depth' := by
  cases r with
  | running e => exact Nat.lt_of_lt_of_le h hle
  | ended outcome memory => exact h

namespace Leads

variable {goal goal' : Progress → Prop}

theorem here (h : goal r) : r.Leads m p goal := ⟨0, .inr h⟩

theorem limit (h : r.Limited) : r.Leads m p goal := ⟨0, .inl h⟩

theorem step (h : (m.step p e).Leads m p goal) : (running e).Leads m p goal := by
  obtain ⟨n, h⟩ := h
  exact ⟨n + 1, h⟩

theorem trans (h : r.Leads m p goal) (h' : ∀ r', goal r' → r'.Leads m p goal') : r.Leads m p goal' := by
  obtain ⟨k, hlim | hgoal⟩ := h
  · exact ⟨k, .inl hlim⟩
  · obtain ⟨n, hn⟩ := h' _ hgoal
    rw [← after_add] at hn
    exact ⟨k + n, hn⟩

end Leads

/-- In its caller, control leaves a call in the way that belongs to the way it leaves the callee. -/
theorem departing_afterCall {code : CodeObject} {caller : Frame} {callers : List Frame} {memory : Memory} {steps : Nat}
    {f : Flow} (h : f ≠ .leave) :
    departing code (caller :: callers) memory steps f =
      departing caller.code callers memory steps (f.afterCall code.name) := by
  cases f with
  | done => rfl
  | leave => exact absurd rfl h
  | halt exit => rfl
  | fault error =>
    simp only [departing, Flow.afterCall, RuntimeError.inContext, Frame.names, List.map_cons, List.append_assoc,
      List.singleton_append]

end Progress

/-! ### One move -/

namespace Machine

variable (m : Machine) (p : Program) {e : Execution}

theorem charge_cases (e : Execution) :
    (∃ fault, m.charge e = .error fault ∧ fault.isLimit = true) ∨
      m.charge e = .ok { e with steps := e.steps + 1 } := by
  unfold charge
  have hsize : ∀ count, (∃ fault, (do
      if m.stackSize < e.memory.stack.length then throw (Fault.stackLimit m.stackSize)
      return { e with steps := count } : Except Fault Execution) = .error fault ∧ fault.isLimit = true) ∨
      (do
      if m.stackSize < e.memory.stack.length then throw (Fault.stackLimit m.stackSize)
      return { e with steps := count } : Except Fault Execution) = .ok { e with steps := count } := by
    intro count
    split
    · exact .inl ⟨_, rfl, rfl⟩
    · exact .inr rfl
  cases m.steps with
  | none => exact hsize _
  | some limit =>
    dsimp only
    split
    · exact .inl ⟨_, rfl, rfl⟩
    · exact hsize _

theorem isLimit_of_charge {fault : Fault} (h : m.charge e = .error fault) : fault.isLimit = true := by
  rcases m.charge_cases e with ⟨fault', hcharge, hlimit⟩ | hcharge
  · cases hcharge.symm.trans h
    exact hlimit
  · cases hcharge.symm.trans h

theorem step_finish (hop : e.current.code.ops[e.current.position]? = none) : m.step p e = e.finish := by
  unfold step
  rw [hop]

theorem step_fault {op : Operation} {fault : Fault} {memory : Memory}
    (hop : e.current.code.ops[e.current.position]? = some op)
    (hrun : op.execute.run.run e.memory = (.error fault, memory)) :
    (m.step p e).Limited ∨ m.step p e = { e with memory, steps := e.steps + 1 }.fail fault := by
  unfold step
  rw [hop]
  rcases m.charge_cases e with ⟨limit, hcharge, hlim⟩ | hcharge
  · rw [hcharge]
    exact .inl hlim
  · rw [hcharge]
    right
    dsimp only
    rw [hrun]

theorem step_proceed {op : Operation} {c : Continuation} {memory : Memory}
    (hop : e.current.code.ops[e.current.position]? = some op)
    (hrun : op.execute.run.run e.memory = (.ok c, memory)) :
    (m.step p e).Limited ∨ m.step p e = m.proceed p { e with memory, steps := e.steps + 1 } c := by
  unfold step
  rw [hop]
  rcases m.charge_cases e with ⟨limit, hcharge, hlim⟩ | hcharge
  · rw [hcharge]
    exact .inl hlim
  · rw [hcharge]
    right
    dsimp only
    rw [hrun]

theorem enter_cases (code : CodeObject) (callers : List Frame) (memory : Memory) (steps : Nat) :
    (m.enter code callers memory steps).Limited ∨
      m.enter code callers memory steps = .running ⟨⟨code, 0⟩, callers, memory, steps⟩ := by
  unfold enter
  split
  · exact .inr rfl
  · exact .inl rfl

theorem proceed_call {id : SubroutineId} {callee : CodeObject} (hcode : p.subroutine? id = some callee) (frame : Frame)
    (callers : List Frame) (memory : Memory) (steps : Nat) :
    m.proceed p ⟨frame, callers, memory, steps⟩ (.call id) =
      m.enter callee (⟨frame.code, frame.position + 1⟩ :: callers) memory steps := by
  rw [proceed, hcode]
  rfl

end Machine

/-! ### What a code object does, the machine does -/

namespace Progress

/-- The machine does what the calls can do: it comes back to the caller, or control leaves the caller too. -/
def Realizes (m : Machine) (p : Program) (calls : Calls) : Prop :=
  ∀ ⦃id mem f mem'⦄, calls id mem f mem' → ∀ (frame : Frame) (callers : List Frame) (steps : Nat),
    (m.proceed p ⟨frame, callers, mem, steps⟩ (.call id)).Leads m p fun r => ∃ steps',
      (f = .done ∧ r = running ⟨⟨frame.code, frame.position + 1⟩, callers, mem', steps'⟩) ∨
        (f ≠ .done ∧ r = departing frame.code callers mem' steps' f)

end Progress

namespace CodeObject

open Progress

variable {m : Machine} {p : Program} {code : CodeObject}

/-- The machine makes its next move, and goes on as the operation says. -/
private theorem leads_of_proceed {op : Operation} {c : Continuation} {frame : Frame} {callers : List Frame}
    {mem mid : Memory} {steps : Nat} {goal : Progress → Prop} (hop : frame.code.ops[frame.position]? = some op)
    (hrun : op.execute.run.run mem = (.ok c, mid))
    (h : (m.proceed p ⟨frame, callers, mid, steps + 1⟩ c).Leads m p goal) :
    (running ⟨frame, callers, mem, steps⟩).Leads m p goal := by
  refine .step ?_
  rcases m.step_proceed p (e := ⟨frame, callers, mem, steps⟩) hop hrun with hlim | hstep
  · exact .limit hlim
  · rwa [hstep]

private theorem leads_of_realizes {calls : Calls} (hcalls : Realizes m p calls) {pos : Nat} {mem mem' : Memory}
    {f : Flow} (h : code.Runs calls pos mem f mem') (callers : List Frame) (steps : Nat) :
    (running ⟨⟨code, pos⟩, callers, mem, steps⟩).Leads m p
      fun r => ∃ steps', r = departing code callers mem' steps' f := by
  induction h generalizing steps with
  | finish hop =>
    refine .step ?_
    rw [m.step_finish p hop]
    exact .here ⟨steps, rfl⟩
  | @fault pos op mem fault mem' hop hrun =>
    refine .step ?_
    rcases m.step_fault p (e := ⟨⟨code, pos⟩, callers, mem, steps⟩) hop hrun with hlim | hstep
    · exact .limit hlim
    · rw [hstep]
      exact .here ⟨steps + 1, rfl⟩
  | advance hop hrun _ ih => exact leads_of_proceed hop hrun (ih (steps + 1))
  | jump hop hrun hrange _ ih =>
    refine leads_of_proceed hop hrun ?_
    rw [Machine.proceed, if_pos hrange]
    exact ih (steps + 1)
  | wild hop hrun hrange =>
    refine leads_of_proceed hop hrun ?_
    rw [Machine.proceed, if_neg hrange]
    exact .here ⟨steps + 1, rfl⟩
  | @back pos op mem id mid mid' f mem' hop hrun hcall _ ih =>
    refine leads_of_proceed hop hrun ((hcalls hcall ⟨code, pos⟩ callers (steps + 1)).trans ?_)
    rintro r ⟨steps', ⟨-, rfl⟩ | ⟨hf, -⟩⟩
    · exact ih steps'
    · exact absurd rfl hf
  | @away pos op mem id mid f mem' hop hrun hcall hf =>
    refine leads_of_proceed hop hrun ((hcalls hcall ⟨code, pos⟩ callers (steps + 1)).trans ?_)
    rintro r ⟨steps', ⟨hdone, -⟩ | ⟨-, rfl⟩⟩
    · exact absurd hdone hf
    · exact .here ⟨steps', rfl⟩
  | leave hop hrun =>
    refine leads_of_proceed hop hrun (.here ⟨steps + 1, ?_⟩)
    cases callers <;> rfl
  | halt hop hrun => exact leads_of_proceed hop hrun (.here ⟨steps + 1, rfl⟩)

private theorem realizes_callsWithin (depth : Nat) : Realizes m p (p.callsWithin depth) := by
  induction depth with
  | zero => exact fun id mem f mem' h => h.elim
  | succ depth ih =>
    intro id mem f mem' h frame callers steps
    rw [Program.callsWithin] at h
    cases hcode : p.subroutine? id with
    | none =>
      rw [hcode] at h
      obtain ⟨rfl, rfl⟩ := h
      rw [Machine.proceed, hcode]
      exact .here ⟨steps, .inr ⟨by simp, rfl⟩⟩
    | some callee =>
      rw [hcode] at h
      obtain ⟨g, hrun, rfl⟩ := h
      rw [m.proceed_call p hcode]
      rcases m.enter_cases callee (⟨frame.code, frame.position + 1⟩ :: callers) mem steps with hlim | henter
      · exact .limit hlim
      · rw [henter]
        refine (leads_of_realizes ih hrun _ steps).trans ?_
        rintro r ⟨steps', rfl⟩
        refine .here ⟨steps', ?_⟩
        by_cases hg : g = .leave
        · subst hg
          exact .inl ⟨rfl, rfl⟩
        · exact .inr ⟨fun h => hg (Flow.afterCall_eq_done.1 h), departing_afterCall hg⟩

/-- The machine does what a code object can do, unless a limit ends the run. -/
theorem leads_of_runs {pos : Nat} {mem mem' : Memory} {f : Flow} (h : code.Runs p.calls pos mem f mem')
    (callers : List Frame) (steps : Nat) :
    (running ⟨⟨code, pos⟩, callers, mem, steps⟩).Leads m p
      fun r => ∃ steps', r = departing code callers mem' steps' f := by
  refine leads_of_realizes ?_ h callers steps
  rintro id mem f mem' ⟨depth, hcall⟩
  exact realizes_callsWithin depth hcall

/-! ### What the machine does, a code object does -/

/-- Within `n` moves the machine is done with the code object that runs, and control left it in a way in which it can. -/
def LeavesWithin (m : Machine) (p : Program) (code : CodeObject) (pos : Nat) (callers : List Frame) (mem : Memory)
    (steps n : Nat) : Prop :=
  ∃ k f mem' steps', k ≤ n ∧ code.Runs p.calls pos mem f mem' ∧
    (running ⟨⟨code, pos⟩, callers, mem, steps⟩).after m p k = departing code callers mem' steps' f

namespace LeavesWithin

variable {pos n steps steps' : Nat} {callers : List Frame} {mem mid : Memory} {f : Flow}

/-- The next move is the last one. -/
theorem now (steps' : Nat) (hruns : code.Runs p.calls pos mem f mid)
    (hstep : m.step p ⟨⟨code, pos⟩, callers, mem, steps⟩ = departing code callers mid steps' f) :
    LeavesWithin m p code pos callers mem steps (n + 1) := by
  refine ⟨1, f, mid, steps', by omega, hruns, ?_⟩
  rw [after, after, hstep]

/-- The code object goes on after the next move. -/
theorem later {pos' : Nat} (h : LeavesWithin m p code pos' callers mid steps' n)
    (hruns : ∀ f mem', code.Runs p.calls pos' mid f mem' → code.Runs p.calls pos mem f mem')
    (hstep : m.step p ⟨⟨code, pos⟩, callers, mem, steps⟩ = running ⟨⟨code, pos'⟩, callers, mid, steps'⟩) :
    LeavesWithin m p code pos callers mem steps (n + 1) := by
  obtain ⟨k, f, mem', steps'', hk, h, hafter⟩ := h
  refine ⟨k + 1, f, mem', steps'', by omega, hruns f mem' h, ?_⟩
  rw [after, hstep]
  exact hafter

/-- A callee is done after the first moves, and only after a return is there more to be done. -/
theorem call {callee : CodeObject} {op : Operation} {id : SubroutineId} (hop : code.ops[pos]? = some op)
    (hrun : op.execute.run.run mem = (.ok (.call id), mid)) (hcode : p.subroutine? id = some callee)
    (hstep : m.step p ⟨⟨code, pos⟩, callers, mem, steps⟩ =
      running ⟨⟨callee, 0⟩, ⟨code, pos + 1⟩ :: callers, mid, steps'⟩)
    (hcallee : LeavesWithin m p callee 0 (⟨code, pos + 1⟩ :: callers) mid steps' n)
    (hback : ∀ k mem' steps'', k ≤ n →
      (running ⟨⟨callee, 0⟩, ⟨code, pos + 1⟩ :: callers, mid, steps'⟩).after m p k =
        running ⟨⟨code, pos + 1⟩, callers, mem', steps''⟩ →
      LeavesWithin m p code (pos + 1) callers mem' steps'' (n - k)) :
    LeavesWithin m p code pos callers mem steps (n + 1) := by
  obtain ⟨k, g, mem', steps'', hk, hruns, hafter⟩ := hcallee
  have hcall : p.calls id mid (g.afterCall callee.name) mem' := by
    rw [p.calls_eq, hcode]
    exact ⟨g, hruns, rfl⟩
  by_cases hg : g = .leave
  · subst hg
    obtain ⟨k', f, mem'', stepsAfter, hk', hruns', hafter'⟩ := hback k mem' steps'' hk hafter
    refine ⟨k + k' + 1, f, mem'', stepsAfter, by omega, .back hop hrun hcall hruns', ?_⟩
    rw [after, hstep, after_add, hafter]
    exact hafter'
  · refine ⟨k + 1, g.afterCall callee.name, mem', steps'', by omega, .away hop hrun hcall ?_, ?_⟩
    · exact fun h => hg (Flow.afterCall_eq_done.1 h)
    · rw [after, hstep, hafter]
      exact departing_afterCall hg

end LeavesWithin

/-- When the machine is done with a code object, and no limit ended the run, then control has left it in a way in
which it can, after some of the moves. -/
theorem runs_of_surfaced {n pos : Nat} {callers : List Frame} {mem : Memory} {steps : Nat}
    (hover : ((running ⟨⟨code, pos⟩, callers, mem, steps⟩).after m p n).Surfaced callers.length)
    (hlim : ¬ ((running ⟨⟨code, pos⟩, callers, mem, steps⟩).after m p n).Limited) :
    LeavesWithin m p code pos callers mem steps n := by
  -- a callee is done after fewer moves than its caller, and its caller goes on with still fewer moves left
  induction n using Nat.strongRecOn generalizing code pos callers mem steps with
  | ind n ih =>
    cases n with
    | zero => exact absurd hover (lt_irrefl _)
    | succ n =>
      rw [after] at hover hlim
      cases hop : code.ops[pos]? with
      | none => exact .now (f := .done) steps (.finish hop) (m.step_finish p hop)
      | some op =>
        rcases hrun : op.execute.run.run mem with ⟨fault | c, mid⟩
        · exact .now (f := .fault ⟨fault, []⟩) (steps + 1) (.fault hop hrun)
            ((m.step_fault p (e := ⟨⟨code, pos⟩, callers, mem, steps⟩) hop hrun).resolve_left
              fun h => hlim (limited_after h n))
        obtain hstep := (m.step_proceed p (e := ⟨⟨code, pos⟩, callers, mem, steps⟩) hop hrun).resolve_left
          fun h => hlim (limited_after h n)
        rw [hstep] at hover hlim
        cases c with
        | advance => exact (ih n (by omega) hover hlim).later (fun _ _ => .advance hop hrun) hstep
        | jump offset =>
          by_cases hrange : 0 ≤ pos + offset.toInt ∧ pos + offset.toInt ≤ code.ops.size
          · rw [Machine.proceed, if_pos hrange] at hover hlim hstep
            exact (ih n (by omega) hover hlim).later (fun _ _ => .jump hop hrun hrange) hstep
          · rw [Machine.proceed, if_neg hrange] at hstep
            exact .now (steps + 1) (.wild hop hrun hrange) hstep
        | call id =>
          cases hcode : p.subroutine? id with
          | none =>
            have hcall : p.calls id mid (.fault ⟨.undefinedSubroutine id, []⟩) mid := by
              rw [p.calls_eq, hcode]
              exact ⟨rfl, rfl⟩
            rw [Machine.proceed, hcode] at hstep
            exact .now (steps + 1) (.away hop hrun hcall (by simp)) hstep
          | some callee =>
            rw [m.proceed_call p hcode] at hstep hover hlim
            obtain henter := (m.enter_cases callee (⟨code, pos + 1⟩ :: callers) mid (steps + 1)).resolve_left
              fun h => hlim (limited_after h n)
            rw [henter] at hstep hover hlim
            refine .call hop hrun hcode hstep (ih n (by omega) (hover.mono (Nat.le_succ _)) hlim) ?_
            intro k mem' steps' hk hafter
            rw [show n = k + (n - k) by omega, after_add, hafter] at hover hlim
            exact ih (n - k) (by omega) hover hlim
        | leave =>
          refine .now (f := .leave) (steps + 1) (.leave hop hrun) ?_
          rw [hstep]
          cases callers <;> rfl
        | halt v => exact .now (steps + 1) (.halt hop hrun) hstep

end CodeObject

/-! ### Calls that come back -/

open Progress

/-- The subroutine that the next move calls is active for `n` moves more, and then the run goes on without it. -/
structure Execution.ComesBack (m : Machine) (p : Program) (e : Execution) (n : Nat) (e' : Execution) : Prop where
  after_eq : (running e).after m p (n + 1) = running e'
  surfaced : e'.callers.length ≤ e.callers.length
  active : ∀ k < n, ¬ ((running e).after m p (k + 1)).Surfaced (e.callers.length + 1)

/-- When a call comes back, it has done what calls can do, and the caller goes on with the operation that follows. -/
theorem Execution.ComesBack.calls {m : Machine} {p : Program} {e e' : Execution} {n : Nat} {id : SubroutineId}
    (h : e.ComesBack m p n e') (hop : e.current.code.ops[e.current.position]? = some (.callsub id)) :
    p.calls id e.memory .done e'.memory ∧ e'.frames = e.advance.frames := by
  obtain ⟨hafter, hsurfaced, hactive⟩ := h
  obtain ⟨frame, callers, mem, steps⟩ := e
  have hnext := fun k (hk : k < n) => hactive k hk
  simp only [after] at hafter hnext
  have hlim : ∀ r : Progress, r.after m p n = running e' → ¬ r.Limited := by
    intro r hr hlim
    have hlater := limited_after (m := m) (p := p) hlim n
    rw [hr] at hlater
    exact hlater
  have hstep := (m.step_proceed p (e := ⟨frame, callers, mem, steps⟩) hop rfl).resolve_left (hlim _ hafter)
  rw [hstep] at hafter hnext
  cases hcode : p.subroutine? id with
  | none =>
    rw [Machine.proceed, hcode] at hafter
    cases (after_ended (m := m) (p := p) n _ _).symm.trans hafter
  | some callee =>
    rw [m.proceed_call p hcode] at hafter hnext
    have henter := (m.enter_cases callee (⟨frame.code, frame.position + 1⟩ :: callers) mem (steps + 1)).resolve_left
      (hlim _ hafter)
    rw [henter] at hafter hnext
    have hover : ((running ⟨⟨callee, 0⟩, ⟨frame.code, frame.position + 1⟩ :: callers, mem, steps + 1⟩).after m p n).Surfaced
        (callers.length + 1) := by
      rw [hafter]
      exact Nat.lt_succ_of_le hsurfaced
    obtain ⟨k, f, mem', steps', hk, hruns, hleft⟩ := CodeObject.runs_of_surfaced hover (by rw [hafter]; exact not_false)
    -- the run goes on, so the subroutine was left by its return
    cases f with
    | done => cases (after_of_ended hleft hk).symm.trans hafter
    | halt v => cases (after_of_ended hleft hk).symm.trans hafter
    | fault error => cases (after_of_ended hleft hk).symm.trans hafter
    | leave =>
      have heq : k = n := by
        refine Nat.le_antisymm hk (Nat.le_of_not_lt fun hlt => hnext k hlt ?_)
        rw [hleft]
        exact Nat.lt_succ_self _
      subst heq
      cases hleft.symm.trans hafter
      refine ⟨?_, rfl⟩
      rw [p.calls_eq, hcode]
      exact ⟨.leave, hruns, rfl⟩

end ScratchMachine
