import ScratchMachine.Proofs.Honesty

/-!
# Trees from builders

A host does not make the nodes of trees itself but calls functions for it, which know the stack effect of every
operation.  What such trees leave on the stack is what their types say, but for two kinds of nodes.

* `Expr.Built`: the trees that come from these functions.
* `Compiler.walks_of_lower`: what the fragment of such a tree does to the stack.
-/

namespace ScratchMachine

open Behaviour BlockGraph Effect

namespace Expr

/-- The operations that take two values and leave one. -/
def binaryOperations : List Operation := [.add, .sub, .mul, .div, .mod, .eq, .ne, .lt, .gt, .le, .ge, .and, .or]

/-- The trees that a host builds by the functions for it, of which every operand, every argument and every condition
has a type. -/
inductive Built : Expr → Prop
  | int (n : UInt64) : Built (.int n)
  | bytes (b : List UInt8) : Built (.bytes b)
  | binary {o : Operation} {a b : Expr} : o ∈ binaryOperations → Built a → a.type ≠ .none → Built b → b.type ≠ .none →
      Built (.binary o a b)
  | not {a : Expr} : Built a → a.type ≠ .none → Built (.not a)
  | pop {a : Expr} : Built a → a.type ≠ .none → Built (.pop a)
  | err : Built .err
  | load {v : Variable} : Built v.index → v.index.type ≠ .none → Built v.load
  | store {v : Variable} {value e : Expr} : v.store value = .ok e → Built v.index → v.index.type ≠ .none →
      Built value → value.type ≠ .none → Built e
  | seq {items : List Expr} : (∀ e ∈ items, Built e) → Built (.seq items)
  | ifThen {cond body : Expr} : Built cond → cond.type ≠ .none → Built body → Built (.ifThen cond body)
  | ifElse {cond yes no : Expr} : Built cond → cond.type ≠ .none → Built yes → Built no → Built (.ifElse cond yes no)
  | ret {value : Expr} : Built value → Built (.ret value)
  | retNothing : Built .retNothing
  | call {callee : Subroutine} {args : List Arg} : (∀ a ∈ args, Built a.pushed) →
      (∀ a ∈ args, a.pushed.type ≠ .none) → Built (.call callee args)

/-- There is no call in the tree. -/
abbrev CallFree (e : Expr) : Prop := e.Everywhere fun q => ∀ callee args, q ≠ .call callee args

theorem Built.index {v : Variable} (h : ∀ e, v.location = .computed e → e.Built) : v.index.Built := by
  unfold Variable.index Location.indexExpr
  split
  · exact .int _
  · exact .int _
  · rename_i e hlocation
    exact h e hlocation

/-! ### Built trees fit the stack -/

theorem everywhere_ofOp {o : Operation} {args : List Expr} {type : ValueType} {pushes : Nat}
    (howns : OwnControl o o.isTerminal) (heffect : o.stackEffect? = some ⟨args.length, pushes⟩)
    (hsize : type.size ≤ pushes) (hpushes : pushes ≤ 1)
    (hargs : ∀ e ∈ args, e.type ≠ .none ∧ e.Everywhere FitsStack) : (ofOp o args type).Everywhere FitsStack :=
  .intro ⟨howns, fun e he => (hargs e he).1, pushes, heffect, hsize, hpushes⟩ fun e he => (hargs e he).2

theorem Built.fitsStack {e : Expr} (h : e.Built) : e.Everywhere FitsStack := by
  induction h with
  | int n => exact .intro trivial (by simp [parts])
  | bytes b => exact .intro trivial (by simp [parts])
  | @binary o a b ho _ ha _ hb iha ihb =>
    have heffect : o.stackEffect? = some ⟨2, 1⟩ ∧ OwnControl o o.isTerminal := by
      simp only [binaryOperations, List.mem_cons, List.not_mem_nil, or_false] at ho
      rcases ho with rfl | rfl | rfl | rfl | rfl | rfl | rfl | rfl | rfl | rfl | rfl | rfl | rfl <;>
        exact ⟨rfl, rfl, rfl, by simp, by simp⟩
    exact everywhere_ofOp heffect.2 heffect.1 (le_refl 1) (le_refl 1) (by simp [ha, hb, iha, ihb])
  | not _ ha iha =>
    exact everywhere_ofOp ⟨rfl, rfl, by simp, by simp⟩ rfl (le_refl 1) (le_refl 1) (by simp [ha, iha])
  | pop _ ha iha =>
    exact everywhere_ofOp ⟨rfl, rfl, by simp, by simp⟩ rfl (le_refl 0) (Nat.zero_le 1) (by simp [ha, iha])
  | err => exact everywhere_ofOp ⟨rfl, rfl, by simp, by simp⟩ rfl (le_refl 0) (Nat.zero_le 1) (by simp)
  | @load v _ hindex ih =>
    unfold Variable.load
    split
    · exact everywhere_ofOp ⟨rfl, rfl, by simp, by simp⟩ rfl v.type.size_le_one (le_refl 1) (by simp)
    · exact everywhere_ofOp ⟨rfl, rfl, by simp, by simp⟩ rfl v.type.size_le_one (le_refl 1) (by simp [hindex, ih])
  | @store v value e hstore _ hindex _ hvalue ihindex ihvalue =>
    obtain ⟨-, -, hstore⟩ := except_bind_eq_ok.1 hstore
    split at hstore
    · cases hstore
      exact everywhere_ofOp ⟨rfl, rfl, by simp, by simp⟩ rfl (le_refl 0) (Nat.zero_le 1) (by simp [hvalue, ihvalue])
    · cases hstore
      exact everywhere_ofOp ⟨rfl, rfl, by simp, by simp⟩ rfl (le_refl 0) (Nat.zero_le 1)
        (by simp [hindex, ihindex, hvalue, ihvalue])
  | seq _ ih => exact .intro trivial ih
  | ifThen _ _ _ ihcond ihbody => exact .intro trivial (by simp [parts, ihcond, ihbody])
  | ifElse _ _ _ _ ihcond ihyes ihno => exact .intro trivial (by simp [parts, ihcond, ihyes, ihno])
  | ret _ ih => exact .intro trivial (by simp [parts, ih])
  | retNothing => exact .intro trivial (by simp [parts])
  | call _ htypes ih => exact .intro (by simpa [FitsStack] using htypes) (by simpa [parts] using ih)

/-- What fits the stack and has passed the checks is orderly. -/
theorem orderly_of_fitsStack {e : Expr} (h : e.Everywhere FitsStack) {current : Option Subroutine}
    {defined : Subroutine → Prop} (hchecked : e.Everywhere (·.Checked current defined)) :
    e.Everywhere (Orderly current defined) :=
  (h.and hchecked).imp fun _ h => ⟨h.1, h.2⟩

theorem Built.orderly {e : Expr} (h : e.Built) {current : Option Subroutine} {defined : Subroutine → Prop}
    (hchecked : e.Everywhere (·.Checked current defined)) : e.Everywhere (Orderly current defined) :=
  orderly_of_fitsStack h.fitsStack hchecked

end Expr

namespace Compiler

variable {σ : Type}

/-- When control has walked through the fragment of a built tree without calls, the stack that was there before is
still below what the walk left, and was neither changed nor looked at.  If the types of the parts are right, then
what is left is as many values as the type of the tree says, and one more if it understates. -/
theorem walks_of_lower {c c' : Compiler σ} {e : Expr} {f : Fragment} (hbuilt : e.Built) (hfree : e.CallFree)
    (hlower : (lower e).run.run c = (.ok f, c')) {calls : Calls} {below stack : List Value}
    {scratch scratch' : Array Value} (hwalk : c'.graph.Walks calls f.entry ⟨below, scratch⟩ .done ⟨stack, scratch'⟩) :
    ∃ vs, stack = vs ++ below ∧
      (∀ other, c'.graph.Walks calls f.entry ⟨other, scratch⟩ .done ⟨vs ++ other, scratch'⟩) ∧
      ((∀ part ∈ e.parts, part.Honest) → vs.length = e.type.size + if e.understates then 1 else 0) := by
  have hlowered := (lower_ensures e c).of_ok hlower
  have hreg := Expr.regular_of_fitsStack hbuilt.fitsStack
  obtain ⟨hwalks, -⟩ := (hlowered.means hreg c'.graph (.refl _)).walks fun x hx => (hlowered.isOpen x hx).2
  -- without a call, nothing depends on the subroutines
  have hchecked : e.Everywhere (·.Checked c.current fun _ => False) := by
    refine (((lower_checks e c).of_ok hlower).and hfree).imp fun q hq => ?_
    cases q with
    | call callee args => exact absurd rfl (hq.2 callee args)
    | _ => exact hq.1
  have horderly := hbuilt.orderly hchecked
  rw [hwalks] at hwalk
  have hconfined : (e.behaviour calls c.current.isSome).Confined .done 0 (e.Leaves (fun _ _ => False) .done) :=
    Expr.confined_behaviour horderly (fun s hs => hs.elim) rfl
  obtain ⟨vs, hleaves, hstack, hother⟩ := @hconfined [] below scratch stack scratch' rfl hwalk
  refine ⟨vs, hstack, fun other => ?_, fun hparts => Expr.leaves_done_eq horderly hparts (fun s hs => hs.elim) hleaves⟩
  rw [hwalks]
  exact hother other

namespace Masked

/-- A variable of any type. -/
def cell : Variable := ⟨.any, .pooled 0, none⟩

/-- A conditional that leaves the value of the variable, or fails.  It has the type of its second arm. -/
def conditional : Expr := .ifElse (.int 1) cell.load .err

def compiler : Compiler Unit := { key := 0, options := {}, slots := .empty 256, host := () }

def blocks : BlockGraph :=
  ⟨#[⟨[.int 1], .branch ⟨1⟩ ⟨3⟩ []⟩, ⟨[.load 0], .next ⟨2⟩⟩, ⟨[], .opened⟩, ⟨[.err], .terminal⟩]⟩

theorem lower_conditional :
    (lower conditional).run.run compiler = (.ok ⟨⟨0⟩, some ⟨2⟩⟩, { compiler with graph := blocks }) := by
  cbv

end Masked

open Masked in
/-- The conditional has no type, but it leaves a value. -/
theorem walks_of_lower_masked : conditional.type = .none ∧
    ∃ vs : List Value, vs.length = 1 ∧ blocks.Walks (fun _ => never) ⟨0⟩ ⟨[], #[.uint 7]⟩ .done ⟨vs, #[.uint 7]⟩ := by
  have hbuilt : conditional.Built :=
    .ifElse (.int 1) (by decide) (.load (.index (by simp [cell])) (by decide)) .err
  have hload : cell.load = .op (.load 0) [] .any false := rfl
  have hfree : conditional.CallFree := by
    refine .intro (by simp [conditional]) fun part hpart => ?_
    simp only [conditional, hload, Expr.err, Expr.ofOp, Expr.parts, List.mem_cons, List.not_mem_nil, or_false] at hpart
    rcases hpart with rfl | rfl | rfl
    all_goals exact .intro (by simp) (by simp [Expr.parts])
  have hparts : ∀ part ∈ conditional.parts, part.Honest := by
    intro part hpart
    simp only [conditional, hload, Expr.err, Expr.ofOp, Expr.parts, List.mem_cons, List.not_mem_nil, or_false] at hpart
    rcases hpart with rfl | rfl | rfl
    all_goals exact .intro rfl (by simp [Expr.parts])
  have hwalk : blocks.Walks (fun _ => never) ⟨0⟩ ⟨[], #[.uint 7]⟩ .done ⟨[.uint 7], #[.uint 7]⟩ := by
    refine .goes rfl (.inl ⟨⟨[.uint 1], #[.uint 7]⟩, ⟨rfl, rfl⟩, rfl, rfl⟩) rfl ?_
    refine .goes rfl (.inl ⟨⟨[.uint 7], #[.uint 7]⟩, ⟨rfl, rfl⟩, rfl, rfl⟩) rfl ?_
    exact .ends rfl ⟨rfl, rfl⟩ rfl
  obtain ⟨vs, hstack, hother, hlength⟩ := walks_of_lower hbuilt hfree lower_conditional hwalk
  have hlength := hlength hparts
  exact ⟨rfl, vs, hlength, by simpa using hother []⟩

end Compiler

end ScratchMachine
