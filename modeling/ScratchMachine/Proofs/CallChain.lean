import ScratchMachine.Proofs.Resources

/-!
# The call stack of a runtime error

At every moment of a run, each active code object but the main one was called by the next one further out, and control
has not come back from that call.  A fault is reported with the names of these code objects.  The code object that a
failing call would have entered is not among them, nor is one that control left past its end.

* `Machine.Fails.suffix`: the frames that an error names.
* `Progress.Chain`: the calls that are in progress at a moment of a run; every move keeps account of them
  (`Progress.Chain.moves`).
* `errors_carry_call_chain`: what the call stack of an error says.
-/

namespace ScratchMachine

open Progress

/-! ### The frames of a failure -/

namespace Machine

variable {m : Machine} {p : Program} {e : Execution}

/-- The frames that an error names are those that are active, or all of them but the innermost one. -/
theorem Fails.suffix {fault : Fault} {frames : List Frame} (h : m.Fails p e fault frames) :
    frames <:+ e.frames ∧ frames ≠ [] := by
  cases h with
  | runOut hop hcallers =>
    refine ⟨List.suffix_cons .., ?_⟩
    rw [hcallers]
    exact List.cons_ne_nil _ _
  | _ => exact ⟨List.suffix_refl _, List.cons_ne_nil _ _⟩

end Machine

/-! ### The calls in progress -/

namespace Progress

variable {m : Machine} {p : Program} {r : Progress} {e e' : Execution} {k : Nat}

/-- At moment `k` of a run a call of a code object is in progress: some time before, an operation of `caller` called it
over the given callers, and control has not come back since.  The position of `caller` is that of the operation that
follows the call. -/
def Inside (m : Machine) (p : Program) (r : Progress) (k : Nat) (code : CodeObject) (caller : Frame)
    (callers : List Frame) : Prop :=
  ∃ i e id, i < k ∧ r.after m p i = running e ∧ e.next? = some (.callsub id) ∧ p.subroutine? id = some code ∧
    e.advance.frames = caller :: callers ∧ ∀ j, i < j → j ≤ k → ¬ (r.after m p j).Surfaced (callers.length + 1)

/-- Frames at moment `k` of a run, innermost first: the last one is that of the main code object, and from each of the
others the call that the next one made of it is in progress. -/
inductive Chain (m : Machine) (p : Program) (r : Progress) (k : Nat) : List Frame → Prop
  | main {f : Frame} : p.main? = some f.code → Chain m p r k [f]
  | call {f caller : Frame} {callers : List Frame} : Inside m p r k f.code caller callers →
      Chain m p r k (caller :: callers) → Chain m p r k (f :: caller :: callers)

namespace Chain

variable {f : Frame} {frames : List Frame}

/-- The innermost code object may be anywhere. -/
theorem moved (h : Chain m p r k (f :: frames)) (pos : Nat) : Chain m p r k (⟨f.code, pos⟩ :: frames) := by
  cases h with
  | main hmain => exact .main hmain
  | call hinside h => exact .call hinside h

/-- Calls are still in progress after a move that does not come back from one of them. -/
theorem later (h : Chain m p r k frames) (hnext : r.after m p (k + 1) = running e')
    (hlength : frames.length ≤ e'.frames.length) : Chain m p r (k + 1) frames := by
  induction h with
  | main hmain => exact .main hmain
  | @call f caller callers hinside _ ih =>
    have hdeep : callers.length + 1 ≤ e'.callers.length := Nat.le_of_succ_le_succ hlength
    have hcallers : (caller :: callers).length ≤ e'.frames.length := Nat.le_succ_of_le hdeep
    refine .call ?_ (ih hcallers)
    obtain ⟨i, before, id, hi, hbefore, hcall, hcode, hframes, hkept⟩ := hinside
    refine ⟨i, before, id, Nat.lt_succ_of_lt hi, hbefore, hcall, hcode, hframes, fun j hij hjk => ?_⟩
    rcases Nat.le_succ_iff.1 hjk with hjk | rfl
    · exact hkept j hij hjk
    · rw [hnext]
      exact Nat.not_lt.2 hdeep

/-- A move begins a call, comes back from the innermost one, or leaves the calls as they are. -/
theorem moves (h : Chain m p r k e.frames) (he : r.after m p k = running e)
    (hnext : r.after m p (k + 1) = running e') (hmoves : Machine.Moves p e e') : Chain m p r (k + 1) e'.frames := by
  cases hmoves with
  | advance hop hrun => exact (h.moved _).later hnext (Nat.le_refl _)
  | jump hop hrun => exact (h.moved _).later hnext (Nat.le_refl _)
  | @call id code hop hcode =>
    refine .call ⟨k, e, id, Nat.lt_succ_self k, he, hop, hcode, rfl, fun j hkj hjk => ?_⟩ ?_
    · obtain rfl : j = k + 1 := Nat.le_antisymm hjk hkj
      rw [hnext]
      exact Nat.lt_irrefl _
    · exact (h.moved _).later hnext (Nat.le_succ _)
  | @leave caller callers hop hcallers =>
    unfold Execution.frames at h
    rw [hcallers] at h
    cases h with
    | call _ h => exact h.later hnext (Nat.le_refl _)

/-- The code objects further out are a chain of their own. -/
theorem of_suffix (h : Chain m p r k frames) {outer : List Frame} (hsuffix : outer <:+ frames) (hne : outer ≠ []) :
    Chain m p r k outer := by
  induction h with
  | main hmain =>
    rcases List.suffix_cons_iff.1 hsuffix with rfl | hnil
    · exact .main hmain
    · exact absurd (List.suffix_nil.1 hnil) hne
  | call hinside h ih =>
    rcases List.suffix_cons_iff.1 hsuffix with rfl | hsuffix
    · exact .call hinside h
    · exact ih hsuffix

theorem getLast? (h : Chain m p r k frames) {main : CodeObject} (hmain : p.main? = some main) :
    (Frame.names frames).getLast? = some main.name := by
  induction h with
  | main hmain' =>
    cases hmain'.symm.trans hmain
    rfl
  | call _ _ ih => exact ih

end Chain

/-- At every moment of a run the active code objects are a chain of calls in progress. -/
theorem chain_of_after (h : (m.start p).after m p k = running e) : Chain m p (m.start p) k e.frames := by
  induction k generalizing e with
  | zero =>
    obtain ⟨main, hmain, hstart⟩ := running_of_start h
    cases hstart.symm.trans h
    exact .main hmain
  | succ k ih =>
    obtain ⟨before, hbefore, hmoves⟩ := running_of_after_succ h
    exact (ih hbefore).moves hbefore h hmoves

end Progress

/-! ### Errors -/

/-- A run whose main code object passed the static check fails at one of its moves.  Its error names the code objects
that are active there, innermost first: the main code object is the last one, from each of the others a call is in
progress that an operation of the next one has made, and there are no more of them than the machine allows.  Neither a
code object that could not be entered, nor one that ended without `retsub`, is named. -/
theorem errors_carry_call_chain {m : Machine} {p : Program} {main : CodeObject} (hmain : p.main? = some main)
    (hcheck : checkHeight 0 main.ops.toList = .ok ()) (hdepth : 1 ≤ m.callDepth) {n : Nat} {error : RuntimeError}
    {memory : Memory} (hend : (m.start p).after m p n = ended (.error error) memory) :
    ∃ k e frames, k < n ∧ (m.start p).after m p k = running e ∧ m.step p e = ended (.error error) memory ∧
      m.Fails p e error.fault frames ∧ error.callStack = Frame.names frames ∧
      Chain m p (m.start p) k e.frames ∧ Chain m p (m.start p) k frames ∧
      error.callStack.getLast? = some main.name ∧ error.callStack.length ≤ m.callDepth := by
  have hstart := start_eq_running hmain hcheck hdepth
  have hfailed := hend
  rw [hstart] at hfailed
  obtain ⟨k, e, hk, he, hstep⟩ := step_of_after_ended hfailed
  rw [← hstart] at he
  obtain ⟨frames, hfails, hnames⟩ := Machine.fails_of_step hstep
  obtain ⟨hsuffix, hne⟩ := hfails.suffix
  have hactive := chain_of_after he
  have hchain := hactive.of_suffix hsuffix hne
  refine ⟨k, e, frames, hk, he, hstep, hfails, hnames, hactive, hchain, ?_, ?_⟩
  · rw [hnames]
    exact hchain.getLast? hmain
  · have hfits := fits_after (p := p) (fits_start m p) k
    rw [he] at hfits
    have hle := hsuffix.length_le
    rw [hnames, Frame.names, List.length_map]
    exact hle.trans hfits.1

namespace PingPong

/-- Two subroutines that call each other without end. -/
def program : Program where
  code := [⟨"main", #[.callsub ⟨0⟩, .ret]⟩, ⟨"ping", #[.callsub ⟨1⟩, .retsub]⟩, ⟨"pong", #[.int 1, .pop, .callsub ⟨0⟩]⟩]
  subroutines := .ofList [(⟨0⟩, 1), (⟨1⟩, 2)]

/-- A machine that allows the program three code objects. -/
def shallow : Machine := { callDepth := 3, slotCount := 0 }

end PingPong

open PingPong in
/-- The second call of `ping` goes too deep: it is named in the fault and not in the call stack. -/
theorem errors_carry_call_chain_deep :
    (shallow.start program).after shallow program 5 =
        ended (.error ⟨.depthLimit 3 "ping", ["pong", "ping", "main"]⟩) ⟨[], #[]⟩ ∧
      ∃ k e frames, k < 5 ∧ (shallow.start program).after shallow program k = running e ∧
        shallow.Fails program e (.depthLimit 3 "ping") frames ∧
        ["pong", "ping", "main"] = Frame.names frames ∧
        Chain shallow program (shallow.start program) k frames := by
  have hend : (shallow.start program).after shallow program 5 =
      ended (.error ⟨.depthLimit 3 "ping", ["pong", "ping", "main"]⟩) ⟨[], #[]⟩ := rfl
  have hmain : program.main? = some ⟨"main", #[.callsub ⟨0⟩, .ret]⟩ := rfl
  obtain ⟨k, e, frames, hk, he, -, hfails, hnames, -, hchain, -⟩ :=
    errors_carry_call_chain hmain rfl (by decide) hend
  exact ⟨hend, k, e, frames, hk, he, hfails, hnames, hchain⟩

end ScratchMachine
