import ScratchMachine.Proofs.Builders
import ScratchMachine.Proofs.Refusals

/-!
# Which expressions are lowered

An expression is lowered exactly if all that it is made of passes the checks, control gets past every part that
something is to follow, and the selected version has the operations that are needed.  Without a call in it, it lets no
subroutine wait.

* `Expr.Admitted`: what is demanded of an expression besides the checks.
* `Compiler.lower_isOk_iff`: an expression is lowered if and only if a compiler accepts it.
-/

namespace ScratchMachine

open BlockGraph Compiler Fallible

/-! ### Demands -/

namespace Expr

/-- Apart from its parts, control gets past those that something is to follow, and the version has the operation. -/
def Admitted (current : Option Subroutine) (options : Options) : Expr → Prop
  | int _ | bytes _ => True
  | op o args _ _ => (∀ e ∈ args, e.alwaysReturns = false) ∧ options.require o = .ok ()
  | seq items => ∀ e ∈ items.dropLast, e.alwaysReturns = false
  | ifThen cond _ | ifElse cond _ _ => cond.alwaysReturns = false
  | ret value => value.alwaysReturns = false ∧ options.require (returnOp current) = .ok ()
  | retNothing => options.require (returnOp current) = .ok ()
  | call callee args =>
    (∀ e ∈ args.map Arg.pushed, e.alwaysReturns = false) ∧ options.require (.callsub callee.id) = .ok ()

theorem Everywhere.sub {P : Expr → Prop} {e q : Expr} (h : e.Everywhere P) (hq : q.Within e) : q.Everywhere P := by
  induction hq with
  | here => exact h
  | part hpart _ ih => exact ih (h.part hpart)

/-- There is no objection to what passes the checks and is admitted. -/
theorem not_objection {current : Option Subroutine} {options : Options} {defined : Subroutine → Prop} {e : Expr}
    {error : CompileError} (hcandid : e.Everywhere Candid) (hchecked : e.Checked current defined)
    (hadmitted : e.Admitted current options) : ¬ e.Objection current options defined error := by
  have hends : ∀ {part : Expr}, part ∈ e.parts → part.Endless → part.alwaysReturns ≠ false := by
    intro part hpart hendless
    rw [hendless (hcandid.part hpart)]
    decide
  intro h
  cases h with
  | operation h => cases hadmitted.2.symm.trans h
  | operand he hendless => exact hends he hendless (hadmitted.1 _ he)
  | items h => cases Eq.symm hchecked |>.trans h
  | item he hendless => exact hends (List.mem_of_mem_dropLast he) hendless (hadmitted _ he)
  | ifThenType h => cases hchecked.1.symm.trans h
  | ifThenBody h => exact h hchecked.2
  | ifThenCond hendless => exact hends (by simp [parts]) hendless hadmitted
  | ifElseType h => cases hchecked.1.symm.trans h
  | ifElseArms h => cases hchecked.2.symm.trans h
  | ifElseCond hendless => exact hends (by simp [parts]) hendless hadmitted
  | retType h => cases Eq.symm hchecked |>.trans h
  | retVersion h => cases hadmitted.2.symm.trans h
  | retValue hendless => exact hends (by simp [parts]) hendless hadmitted.1
  | retNothingType h => cases Eq.symm hchecked |>.trans h
  | retNothingVersion h => cases Eq.symm hadmitted |>.trans h
  | callee h => exact h hchecked.2
  | arguments h => cases hchecked.1.symm.trans h
  | callVersion h => cases hadmitted.2.symm.trans h
  | argument he hendless => exact hends he hendless (hadmitted.1 _ he)

end Expr

namespace BlockGraph

/-- Fragments that lead to a block have ends. -/
theorem LeadsTo.exit_ne_none {g : BlockGraph} {entry own : BlockId} {fragments : List Fragment}
    (h : g.LeadsTo entry fragments own) : ∀ f ∈ fragments, f.exit ≠ none := by
  have hlinked : ∀ {last : Option BlockId} {target : BlockId}, g.Linked last target → last ≠ none := by
    rintro last target ⟨x, rfl, -⟩
    simp
  cases fragments with
  | nil => simp
  | cons first rest =>
    obtain ⟨-, last, hchained, hlast⟩ := h
    induction rest generalizing first with
    | nil =>
      intro f hf
      obtain rfl := List.mem_singleton.1 hf
      exact hlinked (show g.Linked f.exit own from hchained ▸ hlast)
    | cons next rest ih =>
      intro f hf
      rcases List.mem_cons.1 hf with rfl | hf
      · exact hlinked hchained.1
      · exact ih next hchained.2 f hf

end BlockGraph

namespace Compiler

variable {σ : Type} {c c₁ : Compiler σ}

/-! ### What a lowered expression has fulfilled -/

theorem Alike.admitted (h : c.Alike c₁) {e : Expr} (he : e.Everywhere (·.Admitted c₁.current c₁.options)) :
    e.Everywhere (·.Admitted c.current c.options) := by
  rw [h] at he
  exact he

theorem Lowered.alwaysReturns_eq {c' : Compiler σ} {e : Expr} {f : Fragment} (h : Lowered c e f c')
    (hcandid : e.Everywhere Expr.Candid) (hexit : f.exit ≠ none) : e.alwaysReturns = false := by
  rw [← Bool.not_eq_true, ← h.exit_iff hcandid]
  exact hexit

/-- If an operation was put behind fragments, then the version has it, and all of them have ends. -/
theorem emit_admits {c' : Compiler σ} {op : Operation} {fragments : List Fragment} {f : Fragment}
    (hends : ∀ f ∈ fragments, ∀ x, f.exit = some x → x.index < c.graph.size)
    (h : (emit op fragments).run.run c = (.ok f, c')) :
    c.options.require op = .ok () ∧ ∀ f ∈ fragments, f.exit ≠ none := by
  obtain ⟨-, happlied, -⟩ := (emit_ensures (Nat.zero_le _) fun f hf x hx => ⟨Nat.zero_le _, hends f hf x hx⟩).of_ok h
  exact ⟨(emit_eq_ok h).1, happlied.leads.exit_ne_none⟩

theorem LowersAllTo.admitted {es : List Expr} {c' : Compiler σ} {fs : List Fragment}
    (hes : ∀ e ∈ es, ∀ {c f c'}, LowersTo c e f c' → e.Everywhere (Expr.Admitted (Compiler.current (σ := σ) c) c.options))
    (h : LowersAllTo c es fs c') : ∀ e ∈ es, e.Everywhere (·.Admitted c.current c.options) := by
  induction es generalizing c fs with
  | nil => simp
  | cons e es ih =>
    cases h with
    | cons he hrest =>
      have hlater := ih (fun e he => hes e (List.mem_cons_of_mem _ he)) hrest
      exact List.forall_mem_cons.2 ⟨hes e (List.mem_cons_self ..) he,
        fun e' he' => he.rendered.advances.alike.admitted (hlater e' he')⟩

/-- Control gets past the operands whose fragments have ends. -/
theorem LowersAllTo.alwaysReturns_eq {es : List Expr} {c' : Compiler σ} {fs : List Fragment}
    (h : LowersAllTo c es fs c') (hcandid : ∀ e ∈ es, e.Everywhere Expr.Candid) (hends : ∀ f ∈ fs, f.exit ≠ none) :
    ∀ e ∈ es, e.alwaysReturns = false := by
  induction es generalizing c fs with
  | nil => simp
  | cons e es ih =>
    cases h with
    | cons he hrest =>
      obtain ⟨hcandide, hcandid⟩ := List.forall_mem_cons.1 hcandid
      obtain ⟨hend, hends⟩ := List.forall_mem_cons.1 hends
      exact List.forall_mem_cons.2 ⟨he.rendered.alwaysReturns_eq hcandide hend, ih hrest hcandid hends⟩

theorem forall_mem_dropLast_cons {α : Type} {p : α → Prop} {a : α} {l : List α} (ha : l ≠ [] → p a)
    (hl : ∀ b ∈ l.dropLast, p b) : ∀ b ∈ (a :: l).dropLast, p b := by
  by_cases hne : l = []
  · subst hne
    simp
  · rw [List.dropLast_cons_of_ne_nil hne]
    exact List.forall_mem_cons.2 ⟨ha hne, hl⟩

theorem LowersAfterTo.admitted {es : List Expr} {c' : Compiler σ} {before f : Fragment}
    (hes : ∀ e ∈ es, ∀ {c f c'}, LowersTo c e f c' → e.Everywhere (Expr.Admitted (Compiler.current (σ := σ) c) c.options))
    (h : LowersAfterTo c before es f c') : ∀ e ∈ es, e.Everywhere (·.Admitted c.current c.options) := by
  induction es generalizing c before with
  | nil => simp
  | cons e es ih =>
    cases h with
    | cons he hseq hrest =>
      have hlater := ih (fun e he => hes e (List.mem_cons_of_mem _ he)) hrest
      exact List.forall_mem_cons.2 ⟨hes e (List.mem_cons_self ..) he,
        fun e' he' => (he.rendered.advances.alike.trans (alike_onGraph hseq)).admitted (hlater e' he')⟩

/-- Control gets past what something follows. -/
theorem LowersAfterTo.alwaysReturns_eq {es : List Expr} {c' : Compiler σ} {before f : Fragment}
    (h : LowersAfterTo c before es f c') (hcandid : ∀ e ∈ es, e.Everywhere Expr.Candid) :
    (es ≠ [] → before.exit ≠ none) ∧ ∀ e ∈ es.dropLast, e.alwaysReturns = false := by
  induction es generalizing c before with
  | nil => simp
  | cons e es ih =>
    cases h with
    | cons he hseq hrest =>
      obtain ⟨-, rfl, ⟨x, hx, -⟩, -⟩ := (seq_ensures (n := 0) fun _ _ => Nat.zero_le _).of_ok hseq
      obtain ⟨hcandide, hcandid⟩ := List.forall_mem_cons.1 hcandid
      obtain ⟨hend, hreturns⟩ := ih hrest hcandid
      exact ⟨fun _ => by simp [hx],
        forall_mem_dropLast_cons (fun hne => he.rendered.alwaysReturns_eq hcandide (hend hne)) hreturns⟩

/-- What is lowered was admitted. -/
theorem LowersTo.admitted {e : Expr} {c' : Compiler σ} {f : Fragment} (h : LowersTo c e f c')
    (hcandid : e.Everywhere Expr.Candid) : e.Everywhere (·.Admitted c.current c.options) := by
  induction e using Expr.induction generalizing c f c' with
  | int n | bytes b => exact .intro trivial (by simp [Expr.parts])
  | op o args type returns ih =>
    cases h with
    | op hall hemit =>
      have hrendered := hall.rendered fun e _ => LowersTo.rendered
      obtain ⟨hrequire, hends⟩ := emit_admits (fun f hf x hx => (hrendered.exits f hf x hx).2) hemit
      rw [hrendered.advances.alike] at hrequire
      exact .intro ⟨hall.alwaysReturns_eq (fun e he => hcandid.part he) hends, hrequire⟩
        (hall.admitted fun e he _ _ _ h => ih e he h (hcandid.part he))
  | seq items ih =>
    cases h with
    | empty _ => exact .intro (by simp [Expr.Admitted]) (by simp [Expr.parts])
    | @seq e rest _ _ _ _ _ _ hfirst hrest =>
      have hcandid' : ∀ item ∈ e :: rest, item.Everywhere Expr.Candid := fun item hitem => hcandid.part hitem
      obtain ⟨hend, hreturns⟩ := hrest.alwaysReturns_eq fun item hitem => hcandid' item (List.mem_cons_of_mem _ hitem)
      have hcandide := hcandid' e (List.mem_cons_self ..)
      have hlater := hrest.admitted fun item hitem _ _ _ h =>
        ih item (List.mem_cons_of_mem _ hitem) h (hcandid' item (List.mem_cons_of_mem _ hitem))
      exact .intro (forall_mem_dropLast_cons (fun hne => hfirst.rendered.alwaysReturns_eq hcandide (hend hne)) hreturns)
        (List.forall_mem_cons.2 ⟨ih e (List.mem_cons_self ..) hfirst hcandide,
          fun item hitem => hfirst.rendered.advances.alike.admitted (hlater item hitem)⟩)
  | ifThen cond body ihcond ihbody =>
    cases h with
    | ifThen _ _ hcond hlast hbody _ _ _ =>
      have hcandidc := hcandid.part (q := cond) (by simp [Expr.parts])
      have hbody' := ihbody hbody (hcandid.part (by simp [Expr.parts]))
      refine .intro (hcond.rendered.alwaysReturns_eq hcandidc (by simp [conditionEnd_eq_ok hlast])) ?_
      simpa [Expr.parts] using ⟨ihcond hcond hcandidc, hcond.rendered.advances.alike.admitted hbody'⟩
  | ifElse cond yes no ihcond ihyes ihno =>
    cases h with
    | ifElse _ _ hcond hlast hyes hjoin hyesarm hno _ _ =>
      have hcandidc := hcandid.part (q := cond) (by simp [Expr.parts])
      have hyes' := ihyes hyes (hcandid.part (by simp [Expr.parts]))
      have hno' := ihno hno (hcandid.part (by simp [Expr.parts]))
      have halike₁ := hcond.rendered.advances.alike
      have halike₂ := halike₁.trans hyes.rendered.advances.alike
      have halike₄ := (halike₂.trans (alike_onGraph hjoin)).trans (alike_onGraph hyesarm)
      refine .intro (hcond.rendered.alwaysReturns_eq hcandidc (by simp [conditionEnd_eq_ok hlast])) ?_
      simpa [Expr.parts] using ⟨ihcond hcond hcandidc, halike₁.admitted hyes', halike₄.admitted hno'⟩
  | ret value ih =>
    cases h with
    | ret _ hvalue hemit =>
      have hcandidv := hcandid.part (q := value) (by simp [Expr.parts])
      have hrendered := hvalue.rendered
      obtain ⟨hrequire, hends⟩ := emit_admits (by simpa using fun x hx => hrendered.exit_lt hx) hemit
      rw [hrendered.advances.alike] at hrequire
      exact .intro ⟨hrendered.alwaysReturns_eq hcandidv (hends _ (List.mem_cons_self ..)), hrequire⟩
        (by simpa [Expr.parts] using ih hvalue hcandidv)
  | retNothing =>
    cases h with
    | retNothing _ hemit => exact .intro (emit_admits (by simp) hemit).1 (by simp [Expr.parts])
  | call callee args ih =>
    cases h with
    | call _ _ hrequire hall hnoted hemit =>
      have hrendered := hall.rendered fun e _ => LowersTo.rendered
      obtain ⟨-, hgraph⟩ := (enqueue_ensures 0).of_ok hnoted
      obtain ⟨-, hends⟩ := emit_admits (fun f hf x hx => hgraph ▸ (hrendered.exits f hf x hx).2) hemit
      refine .intro ⟨hall.alwaysReturns_eq (fun e he => hcandid.part he) hends, hrequire⟩
        (hall.admitted fun e he _ _ _ h => ?_)
      obtain ⟨a, ha, rfl⟩ := List.mem_map.1 he
      exact ih a ha h (hcandid.part he)

/-! ### What waits -/

theorem pending_onGraph {α : Type} {action : Linking α} {a : α} {c' : Compiler σ}
    (h : (onGraph action).run.run c = (.ok a, c')) : c'.pending = c.pending := by
  rw [eq_of_onGraph h]

theorem pending_emit {c' : Compiler σ} {op : Operation} {fragments : List Fragment} {f : Fragment}
    (h : (emit op fragments).run.run c = (.ok f, c')) : c'.pending = c.pending := pending_onGraph (emit_eq_ok h).2

theorem LowersAllTo.pending_eq {es : List Expr} {c' : Compiler σ} {fs : List Fragment}
    (hes : ∀ e ∈ es, ∀ {c f c'}, LowersTo c e f c' → Compiler.pending (σ := σ) c' = c.pending)
    (h : LowersAllTo c es fs c') : c'.pending = c.pending := by
  induction es generalizing c fs with
  | nil =>
    cases h
    rfl
  | cons e es ih =>
    cases h with
    | cons he hrest =>
      rw [ih (fun e he => hes e (List.mem_cons_of_mem _ he)) hrest, hes e (List.mem_cons_self ..) he]

theorem LowersAfterTo.pending_eq {es : List Expr} {c' : Compiler σ} {before f : Fragment}
    (hes : ∀ e ∈ es, ∀ {c f c'}, LowersTo c e f c' → Compiler.pending (σ := σ) c' = c.pending)
    (h : LowersAfterTo c before es f c') : c'.pending = c.pending := by
  induction es generalizing c before with
  | nil =>
    cases h
    rfl
  | cons e es ih =>
    cases h with
    | cons he hseq hrest =>
      rw [ih (fun e he => hes e (List.mem_cons_of_mem _ he)) hrest, pending_onGraph hseq, hes e (List.mem_cons_self ..) he]

/-- Without a call in it, an expression lets no subroutine wait. -/
theorem LowersTo.pending_eq {e : Expr} {c' : Compiler σ} {f : Fragment} (h : LowersTo c e f c') (hfree : e.CallFree) :
    c'.pending = c.pending := by
  induction e using Expr.induction generalizing c f c' with
  | int n | bytes b =>
    cases h with
    | _ hmade => exact pending_onGraph hmade
  | op o args type returns ih =>
    cases h with
    | op hall hemit => rw [pending_emit hemit, hall.pending_eq fun e he _ _ _ h => ih e he h (hfree.part he)]
  | seq items ih =>
    cases h with
    | empty hmade => exact pending_onGraph hmade
    | @seq e rest _ _ _ _ _ _ hfirst hrest =>
      have hitems : ∀ item ∈ e :: rest, item.CallFree := fun item hitem => hfree.part hitem
      rw [hrest.pending_eq fun item hitem _ _ _ h => ih item (List.mem_cons_of_mem _ hitem) h
        (hitems item (List.mem_cons_of_mem _ hitem)), ih e (List.mem_cons_self ..) hfirst (hitems e (List.mem_cons_self ..))]
  | ifThen cond body ihcond ihbody =>
    cases h with
    | ifThen _ _ hcond _ hbody hjoin harm hbranch =>
      rw [pending_onGraph hbranch, pending_onGraph harm, pending_onGraph hjoin,
        ihbody hbody (hfree.part (by simp [Expr.parts])), ihcond hcond (hfree.part (by simp [Expr.parts]))]
  | ifElse cond yes no ihcond ihyes ihno =>
    cases h with
    | ifElse _ _ hcond _ hyes hjoin hyesarm hno hnoarm hbranch =>
      rw [pending_onGraph hbranch, pending_onGraph hnoarm, ihno hno (hfree.part (by simp [Expr.parts])),
        pending_onGraph hyesarm, pending_onGraph hjoin, ihyes hyes (hfree.part (by simp [Expr.parts])),
        ihcond hcond (hfree.part (by simp [Expr.parts]))]
  | ret value ih =>
    cases h with
    | ret _ hvalue hemit => rw [pending_emit hemit, ih hvalue (hfree.part (by simp [Expr.parts]))]
  | retNothing =>
    cases h with
    | retNothing _ hemit => exact pending_emit hemit
  | call callee args => exact absurd rfl (hfree.here callee args)

/-! ### Acceptance -/

/-- Everything within the expression passes the checks and is admitted. -/
abbrev Accepts (c : Compiler σ) (e : Expr) : Prop :=
  e.Everywhere fun q => q.Checked c.current c.Defines ∧ q.Admitted c.current c.options

/-- An expression is lowered if and only if the compiler accepts it. -/
theorem lower_isOk_iff {e : Expr} (hcandid : e.Everywhere Expr.Candid) (c : Compiler σ) :
    (∃ f c', (lower e).run.run c = (.ok f, c')) ↔ c.Accepts e := by
  constructor
  · rintro ⟨f, c', hlower⟩
    have hrules := (lower_follows e c).of_ok hlower
    exact hrules.passes.and (hrules.admitted hcandid)
  · intro haccepts
    rcases hlower : (lower e).run.run c with ⟨error | f, c'⟩
    · obtain ⟨q, hq, hobjection⟩ := failsFrom_lower e c error c' hlower
      obtain ⟨hchecked, hadmitted⟩ := haccepts.within hq
      exact absurd hobjection (Expr.not_objection (hcandid.sub hq) hchecked hadmitted)
    · exact ⟨f, c', rfl⟩

end Compiler

end ScratchMachine
