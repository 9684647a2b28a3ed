import ScratchMachine.Proofs.Lowering

/-!
# What lowering checks

Lowering refuses a tree if it finds something wrong with one of its nodes, so all nodes of a tree that was lowered
have passed.

* `Compiler.LowersTo.passes`: everything in a lowered tree is as it was checked to be.
-/

namespace ScratchMachine

open Compiler Fallible

/-- What is checked of an expression, apart from its parts, if it is lowered as part of the main program or of a
subroutine and some subroutines are defined. -/
def Expr.Checked (current : Option Subroutine) (defined : Subroutine → Prop) : Expr → Prop
  | int _ | bytes _ | op .. => True
  | seq items => checkItems 0 items = .ok ()
  | ifThen cond body => cond.type.require .uint64 = .ok () ∧ body.type = .none
  | ifElse cond yes no => cond.type.require .uint64 = .ok () ∧ checkArms yes no = .ok ()
  | ret value => checkReturn current value = .ok ()
  | retNothing => checkReturnNone current = .ok ()
  | call callee args => callee.checkArgs args = .ok () ∧ defined callee

theorem Expr.Checked.mono {current : Option Subroutine} {defined defined' : Subroutine → Prop} {e : Expr}
    (h : e.Checked current defined) (hdefined : ∀ s, defined s → defined' s) : e.Checked current defined' := by
  cases e with
  | call callee args => exact ⟨h.1, hdefined callee h.2⟩
  | _ => exact h

namespace Compiler

variable {σ : Type} {c c' : Compiler σ}

/-- The subroutine is one of this compiler. -/
def Defines (c : Compiler σ) (s : Subroutine) : Prop := ∃ d, c.definition? s = some d

/-- Everything in an expression passes the checks that lowering makes in this state. -/
abbrev Passes (c : Compiler σ) (e : Expr) : Prop := e.Everywhere (·.Checked c.current c.Defines)

/-- The checks come out the same in both states. -/
theorem Alike.passes (h : c.Alike c') {e : Expr} (he : c'.Passes e) : c.Passes e := by
  rw [h] at he
  exact he

/-! ### By the rules of lowering -/

theorem LowersAllTo.passes {es : List Expr} (hes : ∀ e ∈ es, ∀ {c f c'}, LowersTo c e f c' → Passes (σ := σ) c e)
    {fs : List Fragment} (h : LowersAllTo c es fs c') : ∀ e ∈ es, c.Passes e := by
  induction es generalizing c fs with
  | nil => simp
  | cons e es ih =>
    cases h with
    | cons he hrest =>
      have hlater := ih (fun e he => hes e (List.mem_cons_of_mem _ he)) hrest
      exact List.forall_mem_cons.2 ⟨hes e (List.mem_cons_self ..) he,
        fun e' he' => he.rendered.advances.alike.passes (hlater e' he')⟩

theorem LowersAfterTo.passes {es : List Expr} (hes : ∀ e ∈ es, ∀ {c f c'}, LowersTo c e f c' → Passes (σ := σ) c e)
    {before f : Fragment} (h : LowersAfterTo c before es f c') : ∀ e ∈ es, c.Passes e := by
  induction es generalizing c before with
  | nil => simp
  | cons e es ih =>
    cases h with
    | cons he hseq hrest =>
      have hlater := ih (fun e he => hes e (List.mem_cons_of_mem _ he)) hrest
      exact List.forall_mem_cons.2 ⟨hes e (List.mem_cons_self ..) he,
        fun e' he' => (he.rendered.advances.alike.trans (alike_onGraph hseq)).passes (hlater e' he')⟩

/-- What is lowered has passed the checks. -/
theorem LowersTo.passes {e : Expr} {f : Fragment} (h : LowersTo c e f c') : c.Passes e := by
  induction e using Expr.induction generalizing c f c' with
  | int n | bytes b => exact .intro trivial (by simp [Expr.parts])
  | op o args type returns ih =>
    cases h with
    | op hall _ => exact .intro trivial (hall.passes fun e he => ih e he)
  | seq items ih =>
    cases h with
    | empty _ => exact .intro rfl (by simp [Expr.parts])
    | seq hcheck hfirst hrest =>
      have hlater := hrest.passes fun e he => ih e (List.mem_cons_of_mem _ he)
      exact .intro hcheck (List.forall_mem_cons.2 ⟨ih _ (List.mem_cons_self ..) hfirst,
        fun e he => hfirst.rendered.advances.alike.passes (hlater e he)⟩)
  | ifThen cond body ihcond ihbody =>
    cases h with
    | ifThen htype hnone hcond _ hbody _ _ _ =>
      refine .intro ⟨htype, hnone⟩ ?_
      simpa [Expr.parts] using ⟨ihcond hcond, hcond.rendered.advances.alike.passes (ihbody hbody)⟩
  | ifElse cond yes no ihcond ihyes ihno =>
    cases h with
    | ifElse htype harms hcond _ hyes hjoin hyesarm hno _ _ =>
      have halike := hcond.rendered.advances.alike
      have halike' := halike.trans hyes.rendered.advances.alike
      have halike'' := (halike'.trans (alike_onGraph hjoin)).trans (alike_onGraph hyesarm)
      refine .intro ⟨htype, harms⟩ ?_
      simpa [Expr.parts] using ⟨ihcond hcond, halike.passes (ihyes hyes), halike''.passes (ihno hno)⟩
  | ret value ih =>
    cases h with
    | ret hcheck hvalue _ => exact .intro hcheck (by simpa [Expr.parts] using ih hvalue)
  | retNothing =>
    cases h with
    | retNothing hcheck _ => exact .intro hcheck (by simp [Expr.parts])
  | call callee args ih =>
    cases h with
    | call hdefined hargs _ hall _ _ =>
      refine .intro ⟨hargs, _, hdefined⟩ (hall.passes fun e he => ?_)
      obtain ⟨a, ha, rfl⟩ := List.mem_map.1 he
      exact ih a ha

/-- Whatever is lowered has passed the checks. -/
theorem lower_checks (e : Expr) (c : Compiler σ) : Ensures (lower e) c (fun _ _ => c.Passes e) fun _ => True :=
  (lower_follows e c).imp (fun _ _ h => h.passes) fun _ _ => trivial

end Compiler

end ScratchMachine
