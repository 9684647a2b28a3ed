import ScratchMachine.Proofs.Dangling

/-!
# The subroutines that lowering notes

When an expression has been lowered, the subroutines that wait are those that waited before, and those that it calls
and whose declaration was not begun; each waits once.

* `Compiler.Notes`: what was noted between two states.
* `Compiler.LowersTo.notes`: lowering notes what the expression calls.
-/

namespace ScratchMachine

open BlockGraph Fallible

namespace Expr

/-- A node of the tree is a call of the subroutine. -/
def Calls (e : Expr) (s : Subroutine) : Prop := ∃ args, Within (.call s args) e

/-- A call in a tree is the tree itself, or in one of its parts. -/
theorem calls_iff {e : Expr} {s : Subroutine} :
    e.Calls s ↔ (∃ args, e = .call s args) ∨ ∃ part ∈ e.parts, part.Calls s := by
  constructor
  · rintro ⟨args, hwithin⟩
    cases hwithin with
    | here => exact .inl ⟨args, rfl⟩
    | part hpart hwithin => exact .inr ⟨_, hpart, args, hwithin⟩
  · rintro (⟨args, rfl⟩ | ⟨part, hpart, args, hwithin⟩)
    · exact ⟨args, .here⟩
    · exact ⟨args, .part hpart hwithin⟩

theorem not_calls_int (n : UInt64) (s : Subroutine) : ¬ (int n).Calls s := by
  rw [calls_iff]
  simp [parts]

theorem not_calls_bytes (b : List UInt8) (s : Subroutine) : ¬ (bytes b).Calls s := by
  rw [calls_iff]
  simp [parts]

end Expr

namespace Compiler

variable {σ α : Type} {c c' c'' : Compiler σ} {called called' : Subroutine → Prop}

/-- From one state to another, subroutines that are called have been noted: each waits, unless its declaration was begun
before. -/
structure Notes (called : Subroutine → Prop) (c c' : Compiler σ) : Prop where
  definitions : c'.definitions = c.definitions
  awaiting : c.pending ⊆ c'.pending
  new : ∀ s ∈ c'.pending, s ∈ c.pending ∨ called s ∧ ∃ d, c.definition? s = some d ∧ d.status = .undeclared
  distinct : (c.pending.map (·.id)).Nodup → (c'.pending.map (·.id)).Nodup
  awaited : ∀ s, called s → c'.Awaited s.id

theorem Notes.refl (c : Compiler σ) : Notes (fun _ => False) c c :=
  ⟨rfl, List.Subset.refl _, fun _ => .inl, id, fun _ h => h.elim⟩

theorem Notes.trans (h : Notes called c c') (h' : Notes called' c' c'') :
    Notes (fun s => called s ∨ called' s) c c'' := by
  refine ⟨h'.definitions.trans h.definitions, List.Subset.trans h.awaiting h'.awaiting, fun s hs => ?_,
    fun hnodup => h'.distinct (h.distinct hnodup), fun s hs => ?_⟩
  · rcases h'.new s hs with hs | ⟨hcalled, d, hd, hstatus⟩
    · exact (h.new s hs).imp_right fun hnew => ⟨.inl hnew.1, hnew.2⟩
    · exact .inr ⟨.inr hcalled, d, by rwa [definition?, ← h.definitions], hstatus⟩
  · rcases hs with hs | hs
    · rcases h.awaited s hs with ⟨s', hs', hid⟩ | hbegun
      · exact .inl ⟨s', h'.awaiting hs', hid⟩
      · exact .inr (h'.definitions ▸ hbegun)
    · exact h'.awaited s hs

theorem Notes.congr (h : Notes called c c') (hiff : ∀ s, called s ↔ called' s) : Notes called' c c' :=
  ⟨h.definitions, h.awaiting, fun s hs => (h.new s hs).imp_right fun hnew => ⟨(hiff s).1 hnew.1, hnew.2⟩, h.distinct,
    fun s hs => h.awaited s ((hiff s).2 hs)⟩

/-- Work on the graph notes nothing. -/
theorem Notes.onGraph (h : Notes called c c') {action : Linking α} {a : α}
    (hrun : (onGraph action).run.run c' = (.ok a, c'')) : Notes called c c'' := by
  rw [eq_of_onGraph hrun]
  exact ⟨h.definitions, h.awaiting, h.new, h.distinct, h.awaited⟩

theorem Notes.emit (h : Notes called c c') {op : Operation} {children : List Fragment} {f : Fragment}
    (hrun : (emit op children).run.run c' = (.ok f, c'')) : Notes called c c'' := h.onGraph (emit_eq_ok hrun).2

theorem notes_enqueue (c : Compiler σ) (callee : Subroutine) :
    Ensures (enqueue callee) c (fun _ c' => Notes (· = callee) c c') fun _ => True := by
  refine ensures_bind (definition_ensures.imp (fun d c₁ h₁ => ?_) fun _ _ => trivial)
  obtain ⟨rfl, hd⟩ := h₁
  have hget := (Option.filter_eq_some_iff.1 hd).1
  split
  · rename_i hstatus
    refine ensures_modify ?_
    split
    · -- it waits already
      rename_i hwaits
      obtain ⟨s', hs', hsame⟩ := List.any_eq_true.1 hwaits
      have hid : callee.id = s'.id := by simpa [Subroutine.sameId] using hsame
      exact ⟨rfl, List.Subset.refl _, fun _ => .inl, id, fun s hs => .inl ⟨s', hs', hs ▸ hid.symm⟩⟩
    · rename_i hnew
      refine ⟨rfl, List.subset_append_left _ _, fun s hs => ?_, fun hnodup => ?_, fun s hs => .inl ⟨callee, by simp, hs ▸ rfl⟩⟩
      · rcases List.mem_append.1 hs with hs | hs
        · exact .inl hs
        · exact .inr ⟨List.mem_singleton.1 hs, d, List.mem_singleton.1 hs ▸ hd, hstatus⟩
      · rw [List.map_append, List.nodup_append]
        refine ⟨hnodup, by simp, fun id hid id' hid' heq => hnew ?_⟩
        obtain ⟨s', hs', rfl⟩ := List.mem_map.1 hid
        obtain rfl : id' = callee.id := by simpa using hid'
        exact List.any_eq_true.2 ⟨s', hs', by simp [Subroutine.sameId, heq]⟩
  all_goals
    rename_i hstatus
    exact ensures_pure ⟨rfl, List.Subset.refl _, fun _ => .inl, id, fun s hs => .inr ⟨d, hs ▸ hget, by simp [hstatus]⟩⟩

/-! ### By the rules of lowering -/

theorem LowersAllTo.notes {es : List Expr} {fs : List Fragment}
    (hes : ∀ e ∈ es, ∀ {c f c'}, LowersTo c e f c' → Notes (σ := σ) e.Calls c c') (h : LowersAllTo c es fs c') :
    Notes (fun s => ∃ e ∈ es, e.Calls s) c c' := by
  induction es generalizing c fs with
  | nil =>
    cases h
    exact (Notes.refl c').congr (by simp)
  | cons e es ih =>
    cases h with
    | cons he hrest =>
      have hlater := ih (fun e he => hes e (List.mem_cons_of_mem _ he)) hrest
      exact ((hes e (List.mem_cons_self ..) he).trans hlater).congr (by simp)

theorem LowersAfterTo.notes {es : List Expr} {before f : Fragment}
    (hes : ∀ e ∈ es, ∀ {c f c'}, LowersTo c e f c' → Notes (σ := σ) e.Calls c c') (h : LowersAfterTo c before es f c') :
    Notes (fun s => ∃ e ∈ es, e.Calls s) c c' := by
  induction es generalizing c before with
  | nil =>
    cases h
    exact (Notes.refl c').congr (by simp)
  | cons e es ih =>
    cases h with
    | cons he hseq hrest =>
      have hlater := ih (fun e he => hes e (List.mem_cons_of_mem _ he)) hrest
      exact (((hes e (List.mem_cons_self ..) he).onGraph hseq).trans hlater).congr (by simp)

/-- Lowering an expression notes the subroutines that it calls. -/
theorem LowersTo.notes {e : Expr} {f : Fragment} (h : LowersTo c e f c') : Notes e.Calls c c' := by
  induction e using Expr.induction generalizing c f c' with
  | int n =>
    cases h with
    | int hmade => exact ((Notes.refl c).onGraph hmade).congr (by simp [Expr.not_calls_int])
  | bytes b =>
    cases h with
    | bytes hmade => exact ((Notes.refl c).onGraph hmade).congr (by simp [Expr.not_calls_bytes])
  | op o args type returns ih =>
    cases h with
    | op hall hemit =>
      refine ((hall.notes fun e he => ih e he).emit hemit).congr fun s => ?_
      simp [Expr.calls_iff (e := .op o args type returns), Expr.parts]
  | seq items ih =>
    cases h with
    | empty hmade =>
      refine ((Notes.refl c).onGraph hmade).congr fun s => ?_
      simp [Expr.calls_iff (e := .seq []), Expr.parts]
    | @seq e rest _ _ _ _ _ _ hfirst hrest =>
      have hlater := hrest.notes fun item hitem => ih item (List.mem_cons_of_mem _ hitem)
      refine ((ih e (List.mem_cons_self ..) hfirst).trans hlater).congr fun s => ?_
      simp [Expr.calls_iff (e := .seq (e :: rest)), Expr.parts]
  | ifThen cond body ihcond ihbody =>
    cases h with
    | ifThen _ _ hcond _ hbody hjoin harm hbranch =>
      have hparts := (ihcond hcond).trans (ihbody hbody)
      refine (((hparts.onGraph hjoin).onGraph harm).onGraph hbranch).congr fun s => ?_
      simp [Expr.calls_iff (e := .ifThen cond body), Expr.parts]
  | ifElse cond yes no ihcond ihyes ihno =>
    cases h with
    | ifElse _ _ hcond _ hyes hjoin hyesarm hno hnoarm hbranch =>
      have hparts := (ihcond hcond).trans (ihyes hyes)
      have hall := ((hparts.onGraph hjoin).onGraph hyesarm).trans (ihno hno)
      refine ((hall.onGraph hnoarm).onGraph hbranch).congr fun s => ?_
      simp [Expr.calls_iff (e := .ifElse cond yes no), Expr.parts, or_assoc]
  | ret value ih =>
    cases h with
    | ret _ hvalue hemit =>
      refine ((ih hvalue).emit hemit).congr fun s => ?_
      simp [Expr.calls_iff (e := .ret value), Expr.parts]
  | retNothing =>
    cases h with
    | retNothing _ hemit =>
      refine ((Notes.refl c).emit hemit).congr fun s => ?_
      simp [Expr.calls_iff (e := .retNothing), Expr.parts]
  | call callee args ih =>
    cases h with
    | call _ _ _ hall hnoted hemit =>
      have hargs := hall.notes fun e he => by
        obtain ⟨a, ha, rfl⟩ := List.mem_map.1 he
        exact ih a ha
      refine ((hargs.trans ((notes_enqueue _ callee).of_ok hnoted)).emit hemit).congr fun s => ?_
      rw [Expr.calls_iff (e := .call callee args), or_comm]
      simp only [Expr.parts, Expr.call.injEq]
      refine or_congr_left ⟨?_, ?_⟩
      · rintro rfl
        exact ⟨args, rfl, rfl⟩
      · rintro ⟨_, rfl, -⟩
        rfl

end Compiler

end ScratchMachine
