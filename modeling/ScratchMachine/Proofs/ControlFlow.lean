import ScratchMachine.Proofs.Assembly

/-!
# Where control can go

Evaluation leaves a piece of a program only in the ways that are provided for it: a main program is not left by a
return from a subroutine, and a subroutine is not left past its end.  What operations do to memory fails for reasons of
its own, none of which has to do with control.

* `Flow.Provided`: the ways out of a piece of a program that are provided for it.
* `Expr.only_behaviour`: evaluation leaves a tree in no other way.
* `Compiler.control_stays_within`: no run of an assembled program ends because control went astray.
-/

namespace ScratchMachine

open Behaviour Effect Fallible

/-- Whether the fault says that control went where there is no code for it: out of the bounds of a code object, past
the end of a subroutine, or out of a subroutine where there is none. -/
def Fault.isStray : Fault → Bool
  | jumpOutOfBounds .. | missingRetsub _ | strayRetsub => true
  | _ => false

theorem Fault.isStray_of_isEffect {fault : Fault} (h : fault.isEffect = true) : fault.isStray = false := by
  cases fault with
  | jumpOutOfBounds position offset => cases h
  | missingRetsub name => cases h
  | strayRetsub => cases h
  | _ => rfl

/-! ### Ways out -/

/-- The ways out of a piece of a program that are provided for it.  Only a piece of a subroutine may be left by a
return from a subroutine. -/
def Flow.Provided (inSubroutine : Bool) : Flow → Prop
  | done | halt _ => True
  | leave => inSubroutine = true
  | fault error => error.fault.isStray = false

namespace Behaviour

/-- Control leaves only in ways of which `p` holds. -/
def Only (b : Behaviour) (p : Flow → Prop) : Prop := ∀ m f m', b m f m' → p f

variable {a b : Behaviour} {p q : Flow → Prop}

theorem Only.imp (h : b.Only p) (himp : ∀ f, p f → q f) : b.Only q := fun m f m' hb => himp f (h m f m' hb)

theorem only_exit {flow : Flow} (h : p flow) : (exit flow).Only p := by
  rintro m f m' ⟨rfl, -⟩
  exact h

theorem only_skip {inSubroutine : Bool} : skip.Only (Flow.Provided inSubroutine) := only_exit (p := Flow.Provided _) trivial

theorem Only.andThen (ha : a.Only p) (hb : b.Only p) : (a.andThen b).Only p := by
  rintro m f m' (⟨mid, -, h⟩ | ⟨-, h⟩)
  · exact hb mid f m' h
  · exact ha m f m' h

theorem only_perform {α : Type} {effect : Effect α} {next : α → Behaviour}
    (heffect : Fails effect fun fault => p (.fault ⟨fault, []⟩)) (hnext : ∀ a, (next a).Only p) :
    (perform effect next).Only p := by
  intro m f m' h
  unfold perform at h
  rcases hrun : effect.run.run m with ⟨fault | a, mid⟩
  · rw [hrun] at h
    obtain ⟨rfl, -⟩ := h
    exact heffect m fault mid hrun
  · rw [hrun] at h
    exact hnext a mid f m' h

variable {inSubroutine : Bool}

theorem only_choose (ha : a.Only (Flow.Provided inSubroutine)) (hb : b.Only (Flow.Provided inSubroutine)) :
    (choose a b).Only (Flow.Provided inSubroutine) := by
  refine only_perform (fails_popInteger fun _ h => Fault.isStray_of_isEffect h) fun n => ?_
  split
  · exact ha
  · exact hb

theorem only_returning (inSubroutine : Bool) : (returning inSubroutine).Only (Flow.Provided inSubroutine) := by
  cases inSubroutine with
  | true => exact only_exit rfl
  | false => exact only_perform (fails_pop rfl) fun v => only_exit (p := Flow.Provided _) trivial

/-- A subroutine that is never left past its end comes back to its caller, unless the program ends in it. -/
theorem only_asCall (name : String) (hb : b.Only (Flow.Provided true)) (hstops : b.Stops) :
    (asCall name b).Only (Flow.Provided false) := by
  rintro m f m' ⟨g, h, rfl⟩
  cases g with
  | done => exact absurd h (hstops m m')
  | leave => trivial
  | halt v => trivial
  | fault error => exact hb m _ m' h

end Behaviour

/-! ### Trees -/

variable {calls : Calls} {inSubroutine : Bool}

theorem Flow.Provided.anywhere {f : Flow} (h : f.Provided false) : f.Provided inSubroutine := by
  cases f with
  | leave => cases h
  | _ => exact h

theorem Operation.only_behaviour {op : Operation} (hcalls : ∀ id, (calls id).Only (Flow.Provided false))
    (hop : op ≠ .retsub) : (op.behaviour calls).Only (Flow.Provided inSubroutine) := by
  intro m f m' h
  unfold Operation.behaviour perform at h
  rcases hrun : op.execute.run.run m with ⟨fault | c, mid⟩
  · rw [hrun] at h
    obtain ⟨rfl, -⟩ := h
    exact Fault.isStray_of_isEffect (op.fails_execute m fault mid hrun)
  · rw [hrun] at h
    have hanswer := op.execute_answers m c mid hrun
    cases c with
    | advance =>
      obtain ⟨rfl, -⟩ := h
      trivial
    | jump offset => exact h.elim
    | call id => exact (hcalls id mid f m' h).anywhere
    | leave => exact absurd hanswer hop
    | halt v =>
      obtain ⟨rfl, -⟩ := h
      trivial

namespace Expr

theorem only_behaviourAll {es : List Expr} (h : ∀ e ∈ es, (e.behaviour calls inSubroutine).Only (Flow.Provided inSubroutine)) :
    (behaviourAll calls inSubroutine es).Only (Flow.Provided inSubroutine) := by
  induction es with
  | nil =>
    rw [behaviourAll]
    exact only_skip
  | cons e es ih =>
    rw [behaviourAll]
    exact (h e (List.mem_cons_self ..)).andThen (ih fun e' he' => h e' (List.mem_cons_of_mem _ he'))

/-- Evaluation leaves a tree only in the ways that are provided for it. -/
theorem only_behaviour {e : Expr} (he : e.Regular) (hcalls : ∀ id, (calls id).Only (Flow.Provided false)) :
    (e.behaviour calls inSubroutine).Only (Flow.Provided inSubroutine) := by
  induction he with
  | int n =>
    rw [behaviour]
    exact only_perform (fails_modify _) fun _ => only_skip
  | bytes b =>
    rw [behaviour]
    exact only_perform (fails_modify _) fun _ => only_skip
  | op howns _ ih =>
    rw [behaviour]
    exact (only_behaviourAll ih).andThen (Operation.only_behaviour hcalls howns.2.2.1)
  | seq _ ih =>
    rw [behaviour]
    exact only_behaviourAll ih
  | ifThen _ _ ihcond ihbody =>
    rw [behaviour]
    exact ihcond.andThen (only_choose ihbody only_skip)
  | ifElse _ _ _ ihcond ihyes ihno =>
    rw [behaviour]
    exact ihcond.andThen (only_choose ihyes ihno)
  | ret _ ih =>
    rw [behaviour]
    exact ih.andThen (only_returning inSubroutine)
  | retNothing =>
    rw [behaviour]
    exact only_returning inSubroutine
  | @call callee args _ ih =>
    rw [behaviour, Arg.behaviourAll_eq]
    refine (only_behaviourAll fun e he => ?_).andThen ((hcalls callee.id).imp fun _ h => h.anywhere)
    obtain ⟨a, ha, rfl⟩ := List.mem_map.1 he
    exact ih a ha

end Expr

/-! ### Compiled programs -/

theorem Variable.only_receiveAll (vs : List Variable) : (Variable.receiveAll vs).Only (Flow.Provided true) := by
  induction vs with
  | nil =>
    rw [receiveAll]
    exact only_skip
  | cons v vs ih =>
    rw [receiveAll]
    refine Only.andThen ?_ ih
    unfold receive
    split
    · exact only_perform (fails_bind (fails_pop rfl) fun _ => fails_writeSlot _ _ fun _ h =>
      Fault.isStray_of_isEffect h) fun _ => only_skip
    · exact fun _ _ _ h => h.elim

/-- A declared subroutine is left by its return and never past its end. -/
theorem Declaration.only_behaviour {d : Declaration} (hbody : d.body.Regular)
    (hcalls : ∀ id, (calls id).Only (Flow.Provided false)) :
    (d.behaviour calls).Only (Flow.Provided true) ∧ (d.behaviour calls).Stops := by
  refine ⟨?_, stops_andThen_right (stops_andThen_right (stops_exit (by simp)))⟩
  exact (Variable.only_receiveAll _).andThen ((Expr.only_behaviour hbody hcalls).andThen (only_exit rfl))

namespace Compilation

variable {c : Compilation}

theorem only_callsWithin (hbodies : ∀ d ∈ c.declarations, d.body.Regular) (depth : Nat) (id : SubroutineId) :
    (c.callsWithin depth id).Only (Flow.Provided false) := by
  induction depth generalizing id with
  | zero => exact fun _ _ _ h => h.elim
  | succ depth ih =>
    rw [callsWithin]
    split
    · exact only_exit rfl
    · rename_i d hd
      obtain ⟨honly, hstops⟩ := Declaration.only_behaviour (hbodies d (List.mem_of_find?_eq_some hd)) ih
      exact only_asCall d.subroutine.name honly hstops

theorem only_evaluate (hbodies : ∀ d ∈ c.declarations, d.body.Regular) {root : Expr} (hroot : root.Regular) :
    (c.evaluate root).Only (Flow.Provided false) := by
  refine Expr.only_behaviour hroot ?_
  rintro id m f m' ⟨depth, h⟩
  exact only_callsWithin hbodies depth id m f m' h

end Compilation

open Progress

theorem Progress.Limited.isStray_eq_false {error : RuntimeError} {memory : Memory}
    (h : (ended (.error error) memory).Limited) : error.fault.isStray = false := by
  obtain ⟨fault, names⟩ := error
  cases fault with
  | stepLimit limit => rfl
  | stackLimit limit => rfl
  | depthLimit limit name => rfl
  | _ => cases h

namespace Compiler

variable {σ : Type} {root : Expr} {compilation : Compilation} {p : Program}

/-- Whatever limits the machine has, no run of a compiled and assembled program fails because of a jump out of bounds,
because a subroutine ends without a return, or because of a return outside of a subroutine. -/
theorem control_stays_within {c c' : Compiler σ} (hc : c.Reachable) {limit : Nat}
    (hcompile : (compile limit root).run.run c = some (.ok compilation, c')) (hroot : root.Regular)
    (hbodies : ∀ d ∈ compilation.declarations, d.body.Regular) (hassemble : compilation.assemble = .ok p)
    (m : Machine) {n : Nat} {error : RuntimeError} {memory : Memory}
    (hended : (m.start p).after m p n = .ended (.error error) memory) : error.fault.isStray = false := by
  have hcompiled := (compile_ensures hc.sound limit root).of_ok hcompile
  obtain ⟨main, hmain, hname, hruns⟩ := hcompiled.main?_eq hroot hbodies hassemble
  rw [Machine.start, hmain] at hended
  dsimp only at hended
  split at hended
  · -- the program is refused before it runs
    rw [after_ended] at hended
    cases hended
    rfl
  by_cases hlim : ((m.enter main [] (.blank m.slotCount) 0).after m p n).Limited
  · rw [hended] at hlim
    exact hlim.isStray_eq_false
  obtain henter := (m.enter_cases main [] (.blank m.slotCount) 0).resolve_left fun h => hlim (limited_after h n)
  rw [henter] at hended hlim
  have hover : ((running ⟨⟨main, 0⟩, [], .blank m.slotCount, 0⟩).after m p n).Surfaced 0 := by
    rw [hended]
    trivial
  obtain ⟨k, f, mem', steps, hk, hrun, hafter⟩ := CodeObject.runs_of_surfaced hover hlim
  rw [departing_main hname] at hafter
  have hend := (after_of_ended hafter hk).symm.trans hended
  rw [hruns] at hrun
  have hprovided := Compilation.only_evaluate hbodies hroot _ _ _ hrun
  cases f with
  | done => cases hend
  | leave => cases hprovided
  | halt v => cases hend
  | fault error' =>
    cases hend
    exact hprovided

open Doubling in
/-- On a machine without slots the doubling program fails, but control does not go astray. -/
theorem control_stays_within_doubling : ∃ error memory,
    ((Machine.start { slotCount := 0 } program).after { slotCount := 0 } program 8) = .ended (.error error) memory ∧
      error.fault.isStray = false := by
  have hcreate : create 0 {} () = .ok (⟨0, {}, .empty 256, {}, [], [], none, ()⟩ : Compiler Unit) := rfl
  have hreachable : compiler.Reachable := .define "double" handle.params .uint64 body (.create hcreate)
  have hroot : root.Regular := by
    refine .call fun a ha => ?_
    obtain rfl := List.mem_singleton.1 ha
    exact .int 21
  have hbodies : ∀ d ∈ compilation.declarations, d.body.Regular := by
    intro d hd
    obtain rfl := List.mem_singleton.1 hd
    refine .op ⟨rfl, rfl, by simp, by simp⟩ fun e he => ?_
    simp only [List.mem_cons, List.not_mem_nil, or_false, or_self] at he
    rw [he]
    exact regular_load
  have hended : (Machine.start { slotCount := 0 } program).after { slotCount := 0 } program 8 =
      .ended (.error ⟨.slotOutOfRange 0 0, ["double", "main"]⟩) ⟨[], #[]⟩ := by
    cbv
  exact ⟨_, _, hended, control_stays_within hreachable compile_root hroot hbodies assemble_compilation _ hended⟩

end Compiler

end ScratchMachine
