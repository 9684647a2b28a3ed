import ScratchMachine.Proofs.Trees

/-!
# The evaluation of trees

A tree is evaluated on one stack.  Literals push, an operation node evaluates its parts from left to right and then
executes its operation, a sequence evaluates its items in order, and a conditional evaluates one of its arms.

* `Expr.behaviour`: the evaluation of a tree, with the behaviour of the calls as a parameter.
* `Expr.stops_behaviour`: control never gets past a tree that always returns.
-/

namespace ScratchMachine

open Behaviour Effect

/-- Control leaves a subroutine with the stack as it is, or the program with the top of the stack. -/
def Behaviour.returning (inSubroutine : Bool) : Behaviour :=
  if inSubroutine then exit .leave else perform pop fun v => exit (.halt v)

mutual

/-- The evaluation of an expression, as part of a subroutine or of the main program. -/
def Expr.behaviour (calls : Calls) (inSubroutine : Bool) : Expr → Behaviour
  | .int n => perform (push (.uint n)) fun _ => skip
  | .bytes b => perform (push (.bytes b)) fun _ => skip
  | .op o args _ _ => (Expr.behaviourAll calls inSubroutine args).andThen (o.behaviour calls)
  | .seq items => Expr.behaviourAll calls inSubroutine items
  | .ifThen cond body =>
    (cond.behaviour calls inSubroutine).andThen (choose (body.behaviour calls inSubroutine) skip)
  | .ifElse cond yes no =>
    (cond.behaviour calls inSubroutine).andThen
      (choose (yes.behaviour calls inSubroutine) (no.behaviour calls inSubroutine))
  | .ret value => (value.behaviour calls inSubroutine).andThen (returning inSubroutine)
  | .retNothing => returning inSubroutine
  | .call callee args => (Arg.behaviourAll calls inSubroutine args).andThen (calls callee.id)

/-- The evaluation of expressions in order. -/
def Expr.behaviourAll (calls : Calls) (inSubroutine : Bool) : List Expr → Behaviour
  | [] => skip
  | e :: rest => (e.behaviour calls inSubroutine).andThen (Expr.behaviourAll calls inSubroutine rest)

/-- The evaluation of the number of a slot. -/
def Location.behaviour (calls : Calls) (inSubroutine : Bool) : Location → Behaviour
  | .pooled slot | .fixed slot => perform (push (.uint slot)) fun _ => skip
  | .computed index => index.behaviour calls inSubroutine

/-- The evaluation of the number of a variable's slot. -/
def Variable.behaviour (calls : Calls) (inSubroutine : Bool) : Variable → Behaviour
  | ⟨_, location, _⟩ => location.behaviour calls inSubroutine

/-- The evaluation of an argument: of the value passed, or of the number of the slot. -/
def Arg.behaviour (calls : Calls) (inSubroutine : Bool) : Arg → Behaviour
  | .value e => e.behaviour calls inSubroutine
  | .ref v => v.behaviour calls inSubroutine

/-- The evaluation of arguments in order. -/
def Arg.behaviourAll (calls : Calls) (inSubroutine : Bool) : List Arg → Behaviour
  | [] => skip
  | a :: rest => (a.behaviour calls inSubroutine).andThen (Arg.behaviourAll calls inSubroutine rest)

end

variable {calls : Calls} {inSubroutine : Bool}

/-! ### Arguments as expressions -/

theorem Arg.behaviour_eq (a : Arg) : a.behaviour calls inSubroutine = a.pushed.behaviour calls inSubroutine := by
  cases a with
  | value e => rw [Arg.behaviour, Arg.pushed]
  | ref v =>
    obtain ⟨type, slot | slot | e, target⟩ := v
    all_goals
      simp only [Arg.behaviour, Arg.pushed, Variable.behaviour, Location.behaviour, Variable.index,
        Location.indexExpr, Expr.behaviour]

theorem Arg.behaviourAll_eq (args : List Arg) :
    Arg.behaviourAll calls inSubroutine args = Expr.behaviourAll calls inSubroutine (args.map Arg.pushed) := by
  induction args with
  | nil => rw [Arg.behaviourAll, List.map_nil, Expr.behaviourAll]
  | cons a rest ih => rw [Arg.behaviourAll, List.map_cons, Expr.behaviourAll, ih, a.behaviour_eq]

/-! ### Operations that stand for nodes -/

theorem behaviour_int (n : UInt64) :
    (Operation.int n).behaviour calls = perform (push (.uint n)) fun _ => skip := by
  rw [Operation.behaviour, Operation.execute, perform_bind]
  rfl

theorem behaviour_byte (b : List UInt8) :
    (Operation.byte b).behaviour calls = perform (push (.bytes b)) fun _ => skip := by
  rw [Operation.behaviour, Operation.execute, perform_bind]
  rfl

theorem behaviour_callsub (id : SubroutineId) : (Operation.callsub id).behaviour calls = calls id := rfl

theorem behaviour_retsub : Operation.retsub.behaviour calls = returning true := rfl

theorem behaviour_ret : Operation.ret.behaviour calls = returning false := by
  rw [Operation.behaviour, Operation.execute, perform_bind]
  rfl

theorem stops_returning (inSubroutine : Bool) : (returning inSubroutine).Stops := by
  cases inSubroutine with
  | true => exact stops_exit (by simp)
  | false =>
    have hret : Operation.ret.behaviour (fun _ => never) = returning false := behaviour_ret
    rw [← hret]
    exact Operation.stops_behaviour rfl _

namespace Expr

theorem behaviourAll_append (items items' : List Expr) :
    behaviourAll calls inSubroutine (items ++ items') =
      (behaviourAll calls inSubroutine items).andThen (behaviourAll calls inSubroutine items') := by
  induction items with
  | nil => rw [List.nil_append, behaviourAll, skip_andThen]
  | cons e rest ih => rw [List.cons_append, behaviourAll, ih, behaviourAll, andThen_assoc]

/-! ### Trees that always return -/

theorem lastReturns_append (items : List Expr) (e : Expr) : lastReturns (items ++ [e]) = e.alwaysReturns := by
  induction items with
  | nil => rw [List.nil_append, lastReturns]
  | cons first rest ih =>
    cases rest with
    | nil => rw [List.cons_append, List.nil_append, lastReturns, lastReturns]
    | cons second rest => rw [List.cons_append, List.cons_append, lastReturns, ← List.cons_append, ih]

theorem stops_behaviourAll_of_lastReturns {items : List Expr} (hlast : lastReturns items = true)
    (h : ∀ e ∈ items, e.alwaysReturns = true → (e.behaviour calls inSubroutine).Stops) :
    (behaviourAll calls inSubroutine items).Stops := by
  induction items with
  | nil => simp [lastReturns] at hlast
  | cons e rest ih =>
    rw [behaviourAll]
    cases rest with
    | nil =>
      rw [lastReturns] at hlast
      rw [behaviourAll, andThen_skip]
      exact h e (List.mem_cons_self ..) hlast
    | cons e' rest =>
      rw [lastReturns] at hlast
      exact stops_andThen_right (ih hlast fun e he => h e (List.mem_cons_of_mem _ he))

/-- Control never gets past a tree that always returns. -/
theorem stops_behaviour {e : Expr} (he : e.Regular) (hreturns : e.alwaysReturns = true) :
    (e.behaviour calls inSubroutine).Stops := by
  induction e using Expr.induction with
  | int n => simp [alwaysReturns] at hreturns
  | bytes b => simp [alwaysReturns] at hreturns
  | op o args type returns ih =>
    cases he with
    | op howns hargs =>
      rw [alwaysReturns] at hreturns
      rw [howns.1] at hreturns
      rw [Expr.behaviour]
      exact stops_andThen_right (Operation.stops_behaviour hreturns calls)
  | seq items ih =>
    cases he with
    | seq hitems =>
      rw [alwaysReturns] at hreturns
      rw [Expr.behaviour]
      exact stops_behaviourAll_of_lastReturns hreturns fun e he hret => ih e he (hitems e he) hret
  | ifThen cond body _ _ => simp [alwaysReturns] at hreturns
  | ifElse cond yes no _ ihyes ihno =>
    cases he with
    | ifElse hcond hyes hno =>
      rw [alwaysReturns, Bool.and_eq_true] at hreturns
      rw [Expr.behaviour]
      exact stops_andThen_right (stops_choose (ihyes hyes hreturns.1) (ihno hno hreturns.2))
  | ret value _ =>
    rw [Expr.behaviour]
    exact stops_andThen_right (stops_returning inSubroutine)
  | retNothing =>
    rw [Expr.behaviour]
    exact stops_returning inSubroutine
  | call callee args _ => simp [alwaysReturns] at hreturns

end Expr

end ScratchMachine
