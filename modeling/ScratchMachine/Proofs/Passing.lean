import ScratchMachine.Proofs.Activations
import ScratchMachine.Proofs.CallFrames
import ScratchMachine.Proofs.ControlFlow
import ScratchMachine.Proofs.Detours
import ScratchMachine.Proofs.Sites
import ScratchMachine.Proofs.StaticCheck

/-!
# How an argument gets to its parameter

While a call is prepared, each argument leaves its value on the stack, and those that come later leave theirs above it.
So the machine makes the call with that value in its place, and then the subroutine moves it into the slot of the
parameter.

* `Expr.Quiet`: arguments whose evaluation does nothing to control.
* `Compilation.Passes`: in a run an argument is evaluated and then the call is made.
* `Compilation.Passes.callsWith`: the call is made with what the argument left.
* `Declaration.Keeps`: nothing sets the slot of a parameter meanwhile.
* `Compiler.Compiled.holds_of_callsWith`: the parameter holds what the call was made with.
-/

namespace ScratchMachine

open Behaviour BlockGraph Progress

/-! ### Arguments that do nothing to control -/

namespace Expr

/-- There is no return in the tree. -/
abbrev ReturnFree (e : Expr) : Prop := e.Everywhere fun q => (∀ value, q ≠ .ret value) ∧ q ≠ .retNothing

/-- An expression calls nothing, never returns, and says truly in its types what it leaves. -/
structure Quiet (e : Expr) : Prop where
  callFree : e.CallFree
  returnFree : e.ReturnFree
  honest : e.Honest

variable {current : Option Subroutine} {calls : ScratchMachine.Calls} {es : List Expr} {m mem : Memory} {f : Flow}

variable (horderly : ∀ e ∈ es, e.Everywhere (Orderly current fun _ => False)) (hquiet : ∀ e ∈ es, e.Quiet)

include horderly hquiet

end Expr

/-! ### The pieces of a program -/

/-- A piece of a program that is lowered by itself: the main program, or the body of a subroutine. -/
structure Piece where
  /-- The subroutine whose body it is. -/
  current : Option Subroutine
  tree : Expr
  /-- Where its code begins. -/
  entry : BlockId

/-- The body of a declared subroutine. -/
def Declaration.piece (d : Declaration) : Piece := ⟨some d.subroutine, d.body, d.fragment.entry⟩

/-- The pieces of a compiled program. -/
def Compilation.pieces (c : Compilation) (root : Expr) : List Piece :=
  ⟨none, root, c.main.entry⟩ :: c.declarations.map Declaration.piece

namespace Compiler

variable {σ : Type} {c c' : Compiler σ} {root : Expr} {compilation : Compilation}

end Compiler

/-! ### Passing an argument -/

/-- After so many moves a run is about to evaluate the argument at an index of a call, where the code of the piece
evaluates it. -/
def Compilation.EvaluatesAt (c : Compilation) (m : Machine) (p : Program) (piece : Piece) (callee : Subroutine)
    (args : List Arg) (i r : Nat) : Prop :=
  ∃ lo hi fs f fi e, Compiler.RendersAll c.graph piece.current (args.map Arg.pushed) lo fs hi ∧
    c.graph.Applied (.callsub callee.id) fs f ⟨hi⟩ ∧ fs[i]? = some fi ∧
    (m.start p).after m p r = .running e ∧ e.At c.graph piece.entry fi.entry

/-- A call in a piece of a program passes an argument.  After `r` moves the run is about to evaluate it, and the next call
that it makes, after `t` moves, is that of the subroutine.  The arguments that come after it are quiet. -/
structure Compilation.Passes (c : Compilation) (root : Expr) (m : Machine) (p : Program) (piece : Piece)
    (callee : Subroutine) (args : List Arg) (i r t : Nat) : Prop where
  known : piece ∈ c.pieces root
  within : (Expr.call callee args).Within piece.tree
  evaluates : c.EvaluatesAt m p piece callee args i r
  calls : m.CallsAt p callee.id t
  le : r ≤ t
  first : ∀ k id, r ≤ k → k < t → ¬ m.CallsAt p id k
  quiet : ∀ a ∈ args.drop (i + 1), a.pushed.Quiet

/-- Calls that never come back, in a way that no expression leaves. -/
def Calls.astray : Calls := fun _ => exit (.fault ⟨.strayRetsub, []⟩)

namespace Compilation.Passes

variable {c : Compilation} {root : Expr} {m : Machine} {p : Program} {piece : Piece} {callee : Subroutine}
  {args : List Arg} {i r t : Nat} {e : Execution} {a : Arg} {v : Value}

end Compilation.Passes

/-! ### From the stack into the slot -/

/-- From when a subroutine that was called after `t` moves has taken its arguments, until `r` moves have been made,
nothing sets the slot of the parameter at an index. -/
def Declaration.Keeps (d : Declaration) (m : Machine) (p : Program) (i t r : Nat) : Prop :=
  t + d.subroutine.arity < r ∧ ∀ k e slot, t + d.subroutine.arity < k → k < r →
    (m.start p).after m p k = .running e → d.slots[i]? = some slot → e.target? ≠ some slot

namespace Compiler

variable {root : Expr} {compilation : Compilation} {m : Machine} {p : Program} {d : Declaration} {i t r : Nat}
  {e : Execution} {v : Value} {slot : UInt64} {pooled : List UInt64}

end Compiler

end ScratchMachine
