import ScratchMachine.Compiler.Lowering
import ScratchMachine.Proofs.Trees

/-!
# The order in which the operations of a tree are listed

The search of a graph goes through the targets of a block from last to first.  An arm that control never gets past leads
to nothing that comes after its conditional; if it is the second arm, then all that comes after is listed before it.  So
the operations of a tree are listed in two parts, and what comes after the tree stands between them.

* `Outline`: what is listed of a tree, before and after the rest of the program.
* `Expr.outline`: the outline of an expression.
* `Expr.Rejoins`: the conditionals of which no arm is listed after the rest.
-/

namespace ScratchMachine

/-! ### Outlines -/

/-- The operations of a tree in the order they are listed. -/
inductive Outline where
  /-- Control never gets past the tree. -/
  | ended (ops : List Operation)
  /-- What comes after the tree is listed between two parts of it. -/
  | onward (before after : List Operation)

namespace Outline

/-- All operations, with nothing between them. -/
def listing : Outline → List Operation
  | ended ops => ops
  | onward before after => before ++ after

/-- A tree by itself, with nothing after it. -/
def alone (o : Outline) : Outline := ended o.listing

/-- One tree, then another. -/
def andThen : Outline → Outline → Outline
  | ended ops, _ => ended ops
  | onward before after, ended ops => ended (before ++ ops ++ after)
  | onward before after, onward before' after' => onward (before ++ before') (after' ++ after)

/-- Two arms.  What comes after them belongs to the second arm if control gets past it, otherwise to the first. -/
def either : Outline → Outline → Outline
  | first, onward before after => onward (first.listing ++ before) after
  | onward before after, ended ops => onward before (after ++ ops)
  | ended ops, ended ops' => ended (ops ++ ops')

/-- An operation by itself. -/
def single (o : Operation) : Outline := if o.isTerminal then ended [o] else onward [o] []

/-- Whether control never gets past the tree. -/
def ends : Outline → Bool
  | ended _ => true
  | onward .. => false

/-- What is listed before the rest of the program. -/
def before : Outline → List Operation
  | ended ops => ops
  | onward before _ => before

/-- What is listed after the rest of the program. -/
def after : Outline → List Operation
  | ended _ => []
  | onward _ after => after

/-- If control gets past the tree, then all of it is listed before what comes after it. -/
def Gathered (o : Outline) : Prop := o.ends = false → o.after = []

theorem andThen_nothing (o : Outline) : o.andThen (onward [] []) = o := by
  cases o with
  | ended ops => rfl
  | onward before after => simp [andThen]

theorem ends_andThen (o o' : Outline) : (o.andThen o').ends = (o.ends || o'.ends) := by
  cases o <;> cases o' <;> rfl

theorem ends_either (o o' : Outline) : (o.either o').ends = (o.ends && o'.ends) := by
  cases o <;> cases o' <;> rfl

theorem ends_single (op : Operation) : (single op).ends = op.isTerminal := by
  unfold single
  split
  · rename_i h
    exact h.symm
  · rename_i h
    exact (Bool.eq_false_iff.2 h).symm

theorem listing_andThen {o : Outline} (h : o.ends = false) (o' : Outline) :
    (o.andThen o').listing = o.before ++ o'.listing ++ o.after := by
  cases o with
  | ended ops => cases h
  | onward before after => cases o' <;> simp [andThen, listing, Outline.before, Outline.after]

theorem listing_eq_before {o : Outline} (h : o.ends = false) (hgathered : o.Gathered) : o.listing = o.before := by
  have hafter := hgathered h
  cases o with
  | ended ops => rfl
  | onward before after =>
    obtain rfl : after = [] := hafter
    exact List.append_nil before

theorem listing_single (op : Operation) : (single op).listing = [op] := by
  unfold single
  split <;> rfl

theorem Gathered.single (op : Operation) : (Outline.single op).Gathered := by
  unfold Outline.single
  split <;> exact fun _ => rfl

theorem Gathered.andThen {o o' : Outline} (h : o.Gathered) (h' : o'.Gathered) : (o.andThen o').Gathered := by
  cases o with
  | ended ops => exact fun _ => rfl
  | onward before after =>
    cases o' with
    | ended ops => exact fun _ => rfl
    | onward before' after' =>
      obtain rfl : after = [] := h rfl
      obtain rfl : after' = [] := h' rfl
      exact fun _ => rfl

theorem Gathered.either {o o' : Outline} (h : o'.Gathered) (hends : o'.ends = true → o.ends = true) :
    (o.either o').Gathered := by
  cases o' with
  | onward before after => exact h
  | ended ops =>
    cases o with
    | ended ops' => exact fun _ => rfl
    | onward before after => cases hends rfl

end Outline

mutual

/-- What is listed of an expression in a subroutine, or in the main program. -/
def Expr.outline (current : Option Subroutine) : Expr → Outline
  | .int n => .onward [.int n] []
  | .bytes b => .onward [.byte b] []
  | .op o args _ _ => Expr.outlineAll current args (.single o)
  | .seq items => Expr.outlineAll current items (.onward [] [])
  | .ifThen cond body => (cond.outline current).andThen (.onward (body.outline current).listing [])
  | .ifElse cond yes no =>
    (cond.outline current).andThen
      (if yes.alwaysReturns && no.alwaysReturns then ((yes.outline current).either (no.outline current)).alone
      else (yes.outline current).either (no.outline current))
  | .ret value => (value.outline current).andThen (.single (Compiler.returnOp current))
  | .retNothing => .single (Compiler.returnOp current)
  | .call callee args => Arg.outlineAll current args (.single (.callsub callee.id))

/-- What is listed of expressions in order, and then of something else. -/
def Expr.outlineAll (current : Option Subroutine) : List Expr → Outline → Outline
  | [], last => last
  | e :: rest, last => (e.outline current).andThen (Expr.outlineAll current rest last)

/-- What is listed of the number of a slot. -/
def Location.outline (current : Option Subroutine) : Location → Outline
  | .pooled slot | .fixed slot => .onward [.int slot] []
  | .computed index => index.outline current

/-- What is listed of the number of a variable's slot. -/
def Variable.outline (current : Option Subroutine) : Variable → Outline
  | ⟨_, location, _⟩ => location.outline current

/-- What is listed of an argument. -/
def Arg.outline (current : Option Subroutine) : Arg → Outline
  | .value e => e.outline current
  | .ref v => v.outline current

/-- What is listed of arguments in order, and then of something else. -/
def Arg.outlineAll (current : Option Subroutine) : List Arg → Outline → Outline
  | [], last => last
  | a :: rest, last => (a.outline current).andThen (Arg.outlineAll current rest last)

end

/-- The operation of an operation node, or that of a call. -/
def Expr.operation? : Expr → Option Operation
  | .op o .. => some o
  | .call callee _ => some (.callsub callee.id)
  | _ => none

/-- If control never gets past the second arm of a conditional, then it never gets past the first. -/
def Expr.Rejoins : Expr → Prop
  | .ifElse _ yes no => no.alwaysReturns = true → yes.alwaysReturns = true
  | _ => True

section Nodes

variable {current : Option Subroutine}

theorem Arg.outline_eq (a : Arg) : a.outline current = a.pushed.outline current := by
  cases a with
  | value e => rw [Arg.outline, Arg.pushed]
  | ref v =>
    obtain ⟨type, slot | slot | e, target⟩ := v
    all_goals
      simp only [Arg.outline, Arg.pushed, Variable.outline, Location.outline, Variable.index, Location.indexExpr,
        Expr.outline]

theorem Arg.outlineAll_eq (args : List Arg) (last : Outline) :
    Arg.outlineAll current args last = Expr.outlineAll current (args.map Arg.pushed) last := by
  induction args with
  | nil => rw [Arg.outlineAll, List.map_nil, Expr.outlineAll]
  | cons a rest ih => rw [Arg.outlineAll, List.map_cons, Expr.outlineAll, ih, a.outline_eq]

theorem Expr.outline_of_operation {e : Expr} {o : Operation} (h : e.operation? = some o) :
    e.outline current = Expr.outlineAll current e.parts (.single o) := by
  cases e with
  | op o' args type returns =>
    cases h
    rw [Expr.outline, Expr.parts]
  | call callee args =>
    cases h
    rw [Expr.outline, Arg.outlineAll_eq, Expr.parts]
  | _ => cases h

theorem Expr.ends_outlineAll {es : List Expr} (last : Outline) (h : ∀ e ∈ es, (e.outline current).ends = false) :
    (Expr.outlineAll current es last).ends = last.ends := by
  induction es with
  | nil => rw [Expr.outlineAll]
  | cons e es ih =>
    rw [Expr.outlineAll, Outline.ends_andThen, h e (List.mem_cons_self ..), Bool.false_or,
      ih fun e he => h e (List.mem_cons_of_mem _ he)]

/-- Expressions in order and then something else are listed from outside to inside. -/
theorem Expr.listing_outlineAll {es : List Expr} (last : Outline) (h : ∀ e ∈ es, (e.outline current).ends = false) :
    (Expr.outlineAll current es last).listing =
      es.flatMap (fun e => (e.outline current).before) ++ last.listing ++
        es.reverse.flatMap (fun e => (e.outline current).after) := by
  induction es with
  | nil => simp [Expr.outlineAll]
  | cons e es ih =>
    rw [Expr.outlineAll, Outline.listing_andThen (h e (List.mem_cons_self ..)),
      ih fun e he => h e (List.mem_cons_of_mem _ he)]
    simp

end Nodes

end ScratchMachine
