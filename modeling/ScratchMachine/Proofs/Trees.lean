import ScratchMachine.Proofs.Behaviour
import ScratchMachine.Variable

/-!
# Trees

Induction over expressions, with the lists of their parts, and the expressions whose operation nodes are what they say.

* `Expr.induction`: what holds of an expression whenever it holds of its parts holds of all expressions.
* `Expr.Everywhere`: an expression and everything of which it is made have a property.
* `Expr.Candid`: the nodes that state rightly whether control gets past them.
* `Expr.Regular`: the trees that are evaluated as they are written.
-/

namespace ScratchMachine

/-- The expression whose value an argument leaves on the stack: the value passed, or the number of a slot. -/
def Arg.pushed : Arg → Expr
  | value e => e
  | ref v => v.index

namespace Expr

/-! ### Induction -/

@[elab_as_elim]
theorem induction {motive : Expr → Prop} (int : ∀ n, motive (.int n)) (bytes : ∀ b, motive (.bytes b))
    (op : ∀ o args type returns, (∀ e ∈ args, motive e) → motive (.op o args type returns))
    (seq : ∀ items, (∀ e ∈ items, motive e) → motive (.seq items))
    (ifThen : ∀ cond body, motive cond → motive body → motive (.ifThen cond body))
    (ifElse : ∀ cond yes no, motive cond → motive yes → motive no → motive (.ifElse cond yes no))
    (ret : ∀ value, motive value → motive (.ret value)) (retNothing : motive .retNothing)
    (call : ∀ callee args, (∀ a ∈ args, motive a.pushed) → motive (.call callee args)) (e : Expr) : motive e :=
  Expr.rec (motive_1 := motive) (motive_2 := fun location => motive location.indexExpr)
    (motive_3 := fun v => motive v.index) (motive_4 := fun a => motive a.pushed)
    (motive_5 := fun l => ∀ e ∈ l, motive e) (motive_6 := fun l => ∀ a ∈ l, motive a.pushed)
    int bytes op seq ifThen ifElse ret retNothing call
    int int (fun _ h => h) (fun _ _ _ h => h) (fun _ h => h) (fun _ h => h)
    (fun _ h => absurd h List.not_mem_nil)
    (fun _ _ hhead htail e he => (List.mem_cons.1 he).elim (fun h => h ▸ hhead) (htail e))
    (fun _ h => absurd h List.not_mem_nil)
    (fun _ _ hhead htail a ha => (List.mem_cons.1 ha).elim (fun h => h ▸ hhead) (htail a)) e

/-! ### Parts -/

/-- The expressions of which an expression is made. -/
def parts : Expr → List Expr
  | int _ | bytes _ | retNothing => []
  | op _ args _ _ => args
  | seq items => items
  | ifThen cond body => [cond, body]
  | ifElse cond yes no => [cond, yes, no]
  | ret value => [value]
  | call _ args => args.map Arg.pushed

/-- An expression has a property, and so has everything of which it is made. -/
inductive Everywhere (P : Expr → Prop) : Expr → Prop
  | intro {e : Expr} : P e → (∀ part ∈ e.parts, Everywhere P part) → Everywhere P e

/-- The expression occurs in another. -/
inductive Within (q : Expr) : Expr → Prop
  | here : Within q q
  | part {e part : Expr} : part ∈ e.parts → Within q part → Within q e

namespace Everywhere

variable {P Q : Expr → Prop} {e : Expr}

theorem here (h : Everywhere P e) : P e := by
  cases h
  assumption

theorem part (h : Everywhere P e) {q : Expr} (hq : q ∈ e.parts) : Everywhere P q := by
  cases h with
  | intro _ hparts => exact hparts q hq

theorem imp (h : Everywhere P e) (himp : ∀ e, P e → Q e) : Everywhere Q e := by
  induction h with
  | intro hhere _ ih => exact .intro (himp _ hhere) ih

theorem and (h : Everywhere P e) (h' : Everywhere Q e) : Everywhere (fun e => P e ∧ Q e) e := by
  induction h with
  | intro hhere _ ih => exact .intro ⟨hhere, h'.here⟩ fun part hpart => ih part hpart (h'.part hpart)

/-- It is enough to look at what occurs in the expression. -/
theorem of_within (h : Everywhere P e) (hQ : ∀ q, P q → q.Within e → Q q) : Everywhere Q e := by
  induction h with
  | intro hhere _ ih =>
    exact .intro (hQ _ hhere .here) fun part hpart => ih part hpart fun q hq hwithin => hQ q hq (.part hpart hwithin)

end Everywhere

/-- What holds of an expression whenever it holds of its parts holds of all expressions. -/
theorem induction_parts {motive : Expr → Prop} (h : ∀ e, (∀ part ∈ e.parts, motive part) → motive e) (e : Expr) :
    motive e := by
  induction e using Expr.induction with
  | int n => exact h _ (by simp [parts])
  | bytes b => exact h _ (by simp [parts])
  | op o args type returns ih => exact h _ ih
  | seq items ih => exact h _ ih
  | ifThen cond body ihcond ihbody => exact h _ (by simp [parts, ihcond, ihbody])
  | ifElse cond yes no ihcond ihyes ihno => exact h _ (by simp [parts, ihcond, ihyes, ihno])
  | ret value ih => exact h _ (by simp [parts, ih])
  | retNothing => exact h _ (by simp [parts])
  | call callee args ih => exact h _ (by simpa [parts] using ih)

theorem Everywhere.within {P : Expr → Prop} {e q : Expr} (h : e.Everywhere P) (hq : q.Within e) : P q := by
  induction hq with
  | here => exact h.here
  | part hpart _ ih => exact ih (h.part hpart)

theorem everywhere_of_within {P : Expr → Prop} {e : Expr} (h : ∀ q, Within q e → P q) : e.Everywhere P := by
  induction e using Expr.induction_parts with
  | h e ih => exact .intro (h e .here) fun part hpart => ih part hpart fun q hq => h q (.part hpart hq)

/-! ### Regular trees -/

/-- An operation node states rightly whether control gets past it. -/
def Candid : Expr → Prop
  | op o _ _ returns => returns = o.isTerminal
  | _ => True

/-- The operation of a node says itself how control moves on, and it is for the nodes of calls to call and for those
of returns to leave a subroutine. -/
def OwnControl (o : Operation) (returns : Bool) : Prop :=
  returns = o.isTerminal ∧ o.isJump = false ∧ o ≠ .retsub ∧ ∀ id, o ≠ .callsub id

/-- Every operation node of the tree states rightly whether control gets past it, and its operation neither jumps nor
calls nor leaves a subroutine. -/
inductive Regular : Expr → Prop
  | int (n : UInt64) : Regular (.int n)
  | bytes (b : List UInt8) : Regular (.bytes b)
  | op {o : Operation} {args : List Expr} {type : ValueType} {returns : Bool} : OwnControl o returns →
      (∀ e ∈ args, Regular e) → Regular (.op o args type returns)
  | seq {items : List Expr} : (∀ e ∈ items, Regular e) → Regular (.seq items)
  | ifThen {cond body : Expr} : Regular cond → Regular body → Regular (.ifThen cond body)
  | ifElse {cond yes no : Expr} : Regular cond → Regular yes → Regular no → Regular (.ifElse cond yes no)
  | ret {value : Expr} : Regular value → Regular (.ret value)
  | retNothing : Regular .retNothing
  | call {callee : Subroutine} {args : List Arg} : (∀ a ∈ args, Regular a.pushed) → Regular (.call callee args)

theorem Regular.part {e q : Expr} (h : e.Regular) (hq : q ∈ e.parts) : q.Regular := by
  cases h with
  | int n => cases hq
  | bytes b => cases hq
  | op _ hargs => exact hargs q hq
  | seq hitems => exact hitems q hq
  | ifThen hcond hbody =>
    simp only [parts, List.mem_cons, List.not_mem_nil, or_false] at hq
    rcases hq with rfl | rfl
    · exact hcond
    · exact hbody
  | ifElse hcond hyes hno =>
    simp only [parts, List.mem_cons, List.not_mem_nil, or_false] at hq
    rcases hq with rfl | rfl | rfl
    · exact hcond
    · exact hyes
    · exact hno
  | ret hvalue => exact List.mem_singleton.1 hq ▸ hvalue
  | retNothing => cases hq
  | call hargs =>
    obtain ⟨a, ha, rfl⟩ := List.mem_map.1 hq
    exact hargs a ha

theorem Regular.candid {e : Expr} (h : e.Regular) : e.Everywhere Candid := by
  induction h with
  | int n => exact .intro trivial (by simp [parts])
  | bytes b => exact .intro trivial (by simp [parts])
  | op howns _ ih => exact .intro howns.1 ih
  | seq _ ih => exact .intro trivial ih
  | ifThen _ _ ihcond ihbody => exact .intro trivial (by simp [parts, ihcond, ihbody])
  | ifElse _ _ _ ihcond ihyes ihno => exact .intro trivial (by simp [parts, ihcond, ihyes, ihno])
  | ret _ ih => exact .intro trivial (by simp [parts, ih])
  | retNothing => exact .intro trivial (by simp [parts])
  | call _ ih => exact .intro trivial (by simpa [parts] using ih)

end Expr

end ScratchMachine
