import ScratchMachine.Proofs.Listing
import ScratchMachine.Proofs.Lowering

/-!
# The order of operands

What is listed of a lowered tree follows from its shape.  The operands of a node are listed in their order, and before
the operation, but for what an operand has after the rest of the program: such parts come behind the operation, those of
the first operand last.

* `Compiler.flatten_lower`: what is listed of a lowered tree.
* `Compiler.operands_listed_in_order`: where the operands of a node are listed.
-/

namespace ScratchMachine

namespace Compiler

open BlockGraph Fallible

/-! ### Lowered trees -/

section Shape

variable {g : BlockGraph} {current : Option Subroutine} {e : Expr} {es : List Expr} {lo mid hi : Nat} {f : Fragment}
  {fs : List Fragment}

/-- Expressions one after another, and then something else. -/
theorem RendersAll.lists {last : Outline} {entry own : BlockId} {exit : Option BlockId}
    (hes : ∀ e ∈ es, ∀ lo f hi, Renders g current e lo f hi → g.Lists lo hi [f.entry] f.exit (e.outline current))
    (h : RendersAll g current es lo fs mid) (hleads : g.LeadsTo entry fs own) (hmid : mid ≤ hi)
    (hlast : g.Lists mid hi [own] exit last) : g.Lists lo hi [entry] exit (Expr.outlineAll current es last) := by
  induction es generalizing lo fs entry with
  | nil =>
    cases h
    obtain rfl : entry = own := hleads
    rwa [Expr.outlineAll]
  | cons e es ih =>
    cases h with
    | cons he hrest =>
      obtain ⟨rfl, entry', hlinked, hleads'⟩ := hleads.tail
      have hle := hrest.le fun e _ _ _ _ => Renders.le
      have hlater := ih (fun e he => hes e (List.mem_cons_of_mem _ he)) hrest hleads'
      rw [Expr.outlineAll]
      exact (hes e (List.mem_cons_self ..) _ _ _ he).andThen he.le (hle.trans hmid)
        (fun x hx => successors_of_linked hlinked hx) hlater

theorem RendersSeq.lists
    (hes : ∀ e ∈ es, ∀ lo f hi, Renders g current e lo f hi → g.Lists lo hi [f.entry] f.exit (e.outline current))
    (h : RendersSeq g current es lo f hi) :
    g.Lists lo hi [f.entry] f.exit (Expr.outlineAll current es (.onward [] [])) := by
  induction es generalizing lo f with
  | nil => cases h
  | cons e es ih =>
    have hfirst := hes e (List.mem_cons_self ..)
    rw [Expr.outlineAll]
    cases h with
    | last he =>
      rw [Expr.outlineAll, Outline.andThen_nothing]
      exact hfirst _ _ _ he
    | cons he hlinked hrest =>
      have hlater := ih (fun e he => hes e (List.mem_cons_of_mem _ he)) hrest
      exact (hfirst _ _ _ he).andThen he.le (hrest.le fun e _ _ _ _ => Renders.le)
        (fun x hx => successors_of_linked hlinked hx) hlater

/-- A node whose operation comes after its parts. -/
theorem Renders.lists_applied {op : Operation}
    (hes : ∀ e ∈ es, ∀ lo f hi, Renders g current e lo f hi → g.Lists lo hi [f.entry] f.exit (e.outline current))
    (h : RendersAll g current es lo fs hi) (happlied : g.Applied op fs f ⟨hi⟩) :
    g.Lists lo (hi + 1) [f.entry] f.exit (Expr.outlineAll current es (.single op)) := by
  rw [happlied.exit]
  exact h.lists hes happlied.leads (Nat.le_succ hi) (lists_single happlied.holds)

/-- What is listed of the blocks of a tree. -/
theorem Renders.lists (h : Renders g current e lo f hi) : g.Lists lo hi [f.entry] f.exit (e.outline current) := by
  induction e using Expr.induction generalizing lo f hi with
  | int n =>
    cases h with
    | int hholds =>
      rw [Expr.outline]
      exact lists_block hholds
  | bytes b =>
    cases h with
    | bytes hholds =>
      rw [Expr.outline]
      exact lists_block hholds
  | op o args type returns ih =>
    cases h with
    | op hall happlied =>
      rw [Expr.outline]
      exact lists_applied (fun e he _ _ _ => ih e he) hall happlied
  | seq items ih =>
    cases h with
    | empty hholds =>
      rw [Expr.outline, Expr.outlineAll]
      exact lists_block hholds
    | seq hseq =>
      rw [Expr.outline]
      exact hseq.lists fun e he _ _ _ => ih e he
  | ifThen cond body ihcond ihbody =>
    cases h with
    | ifThen hcond hbody hlast hbranch hjoined hholds =>
      rw [Expr.outline]
      obtain ⟨-, b, hb, hexit⟩ := hbranch
      refine (ihcond hcond).andThen hcond.le (hbody.le.trans (Nat.le_succ _)) (fun x hx => ?_)
        ((ihbody hbody).optional hbody.le hjoined hholds)
      obtain rfl := Option.some.inj (hlast.symm.trans hx)
      rw [successors_of_block hb, hexit]
      rfl
  | ifElse cond yes no ihcond ihyes ihno =>
    cases h with
    | @ifElse _ _ _ _ _ _ _ c y n _ hcond hyes hno hlast hbranch hyes' hno' hholds hopen =>
      rw [Expr.outline]
      obtain ⟨-, b, hb, hexit⟩ := hbranch
      have harms := (ihyes hyes).either (ihno hno) hyes.le hno.le hyes' hno' hholds
      have hnext : ∀ x, c.exit = some x → (g.successors x).reverse = [n.entry, y.entry] := by
        intro x hx
        obtain rfl := Option.some.inj (hlast.symm.trans hx)
        rw [successors_of_block hb, hexit]
        rfl
      refine (ihcond hcond).andThen hcond.le (hyes.le.trans ((Nat.le_succ _).trans hno.le)) hnext ?_
      split
      · rename_i hreturns
        exact harms.alone fun x hx => Option.some.inj hx ▸ hopen hreturns
      · exact harms
  | ret value ih =>
    cases h with
    | ret hvalue happlied =>
      rw [Expr.outline]
      have hlists := lists_applied (List.forall_mem_singleton.2 fun _ _ _ => ih) (.cons hvalue .nil) happlied
      rwa [Expr.outlineAll, Expr.outlineAll] at hlists
  | retNothing =>
    cases h with
    | retNothing happlied =>
      rw [Expr.outline]
      have hnothing : RendersAll g current [] lo [] lo := .nil
      have hlists := lists_applied (by simp) hnothing happlied
      rwa [Expr.outlineAll] at hlists
  | call callee args ih =>
    cases h with
    | call hall happlied =>
      rw [Expr.outline, Arg.outlineAll_eq]
      refine lists_applied (fun e he _ _ _ h => ?_) hall happlied
      obtain ⟨a, ha, rfl⟩ := List.mem_map.1 he
      exact ih a ha h

/-! ### Ends of trees -/

/-- Control gets past a tree whose fragment has an end. -/
theorem Renders.ends_of_exit {x : BlockId} (h : Renders g current e lo f hi) (hcandid : e.Everywhere Expr.Candid)
    (hends : (e.outline current).ends = e.alwaysReturns) (hx : f.exit = some x) : (e.outline current).ends = false := by
  rw [hends, Bool.eq_false_iff, Ne, ← h.exit_iff hcandid, hx]
  simp

theorem RendersAll.ends {entry own : BlockId} (hcandid : ∀ e ∈ es, e.Everywhere Expr.Candid)
    (hes : ∀ e ∈ es, ∀ lo f hi, Renders g current e lo f hi → (e.outline current).ends = e.alwaysReturns)
    (h : RendersAll g current es lo fs mid) (hleads : g.LeadsTo entry fs own) :
    ∀ e ∈ es, (e.outline current).ends = false := by
  induction es generalizing lo fs entry with
  | nil => simp
  | cons e es ih =>
    cases h with
    | cons he hrest =>
      obtain ⟨-, entry', ⟨x, hx, -⟩, hleads'⟩ := hleads.tail
      have hfirst := List.mem_cons_self (a := e) (l := es)
      refine List.forall_mem_cons.2 ⟨he.ends_of_exit (hcandid e hfirst) (hes e hfirst _ _ _ he) hx, ?_⟩
      exact ih (fun e he => hcandid e (List.mem_cons_of_mem _ he)) (fun e he => hes e (List.mem_cons_of_mem _ he)) hrest
        hleads'

theorem RendersSeq.ends (hcandid : ∀ e ∈ es, e.Everywhere Expr.Candid)
    (hes : ∀ e ∈ es, ∀ lo f hi, Renders g current e lo f hi → (e.outline current).ends = e.alwaysReturns)
    (h : RendersSeq g current es lo f hi) :
    (Expr.outlineAll current es (.onward [] [])).ends = Expr.lastReturns es := by
  induction es generalizing lo f with
  | nil => cases h
  | cons e es ih =>
    have hfirst := hes e (List.mem_cons_self ..)
    rw [Expr.outlineAll]
    cases h with
    | last he =>
      rw [Expr.outlineAll, Outline.andThen_nothing, Expr.lastReturns]
      exact hfirst _ _ _ he
    | cons he hlinked hrest =>
      obtain ⟨x, hx, -⟩ := hlinked
      have hgoes := he.ends_of_exit (hcandid e (List.mem_cons_self ..)) (hfirst _ _ _ he) hx
      have hlater := ih (fun e he => hcandid e (List.mem_cons_of_mem _ he))
        (fun e he => hes e (List.mem_cons_of_mem _ he)) hrest
      rw [Outline.ends_andThen, hgoes, Bool.false_or, hlater]
      cases es with
      | nil => cases hrest
      | cons e' es => rw [Expr.lastReturns]

theorem RendersAll.gathered {last : Outline}
    (hes : ∀ e ∈ es, ∀ lo f hi, Renders g current e lo f hi → (e.outline current).Gathered)
    (h : RendersAll g current es lo fs hi) (hlast : last.Gathered) :
    (Expr.outlineAll current es last).Gathered := by
  induction es generalizing lo fs with
  | nil => rwa [Expr.outlineAll]
  | cons e es ih =>
    cases h with
    | cons he hrest =>
      rw [Expr.outlineAll]
      exact (hes e (List.mem_cons_self ..) _ _ _ he).andThen (ih (fun e he => hes e (List.mem_cons_of_mem _ he)) hrest)

theorem RendersSeq.gathered
    (hes : ∀ e ∈ es, ∀ lo f hi, Renders g current e lo f hi → (e.outline current).Gathered)
    (h : RendersSeq g current es lo f hi) : (Expr.outlineAll current es (.onward [] [])).Gathered := by
  induction es generalizing lo f with
  | nil => cases h
  | cons e es ih =>
    have hfirst := hes e (List.mem_cons_self ..)
    rw [Expr.outlineAll]
    cases h with
    | last he =>
      rw [Expr.outlineAll, Outline.andThen_nothing]
      exact hfirst _ _ _ he
    | cons he _ hrest =>
      exact (hfirst _ _ _ he).andThen (ih (fun e he => hes e (List.mem_cons_of_mem _ he)) hrest)

/-- Control gets past a tree as its nodes say. -/
theorem Renders.ends (h : Renders g current e lo f hi) (hcandid : e.Everywhere Expr.Candid) :
    (e.outline current).ends = e.alwaysReturns := by
  induction e using Expr.induction generalizing lo f hi with
  | int n | bytes b => rw [Expr.outline, Outline.ends, Expr.alwaysReturns]
  | op o args type returns ih =>
    cases h with
    | op hall happlied =>
      have hargs : ∀ a ∈ args, (a.outline current).ends = false := hall.ends (fun e he => hcandid.part he)
        (fun e he _ _ _ h => ih e he h (hcandid.part he)) happlied.leads
      have hreturns : returns = o.isTerminal := hcandid.here
      rw [Expr.outline, Expr.ends_outlineAll _ hargs, Outline.ends_single, Expr.alwaysReturns, hreturns]
  | seq items ih =>
    rw [Expr.outline, Expr.alwaysReturns]
    cases h with
    | empty hholds => rw [Expr.outlineAll, Outline.ends, Expr.lastReturns]
    | seq hseq => exact hseq.ends (fun e he => hcandid.part he) fun e he _ _ _ h => ih e he h (hcandid.part he)
  | ifThen cond body ihcond =>
    have hcandidc := hcandid.part (q := cond) (by simp [Expr.parts])
    cases h with
    | ifThen hcond _ hlast =>
      have hgoes := hcond.ends_of_exit hcandidc (ihcond hcond hcandidc) hlast
      rw [Expr.outline, Outline.ends_andThen, hgoes, Outline.ends, Expr.alwaysReturns, Bool.or_false]
  | ifElse cond yes no ihcond ihyes ihno =>
    have hcandidc := hcandid.part (q := cond) (by simp [Expr.parts])
    cases h with
    | ifElse hcond hyes hno hlast =>
      have hgoes := hcond.ends_of_exit hcandidc (ihcond hcond hcandidc) hlast
      have hendsyes := ihyes hyes (hcandid.part (by simp [Expr.parts]))
      have hendsno := ihno hno (hcandid.part (by simp [Expr.parts]))
      rw [Expr.outline, Outline.ends_andThen, hgoes, Bool.false_or, Expr.alwaysReturns]
      split
      · rename_i hreturns
        rw [Outline.alone, Outline.ends, hreturns]
      · rw [Outline.ends_either, hendsyes, hendsno]
  | ret value ih =>
    have hcandidv := hcandid.part (q := value) (by simp [Expr.parts])
    cases h with
    | ret hvalue happlied =>
      obtain ⟨-, entry', ⟨x, hx, -⟩, -⟩ := happlied.leads.tail
      have hgoes := hvalue.ends_of_exit hcandidv (ih hvalue hcandidv) hx
      rw [Expr.outline, Outline.ends_andThen, hgoes, Outline.ends_single, isTerminal_returnOp, Expr.alwaysReturns,
        Bool.or_true]
  | retNothing => rw [Expr.outline, Outline.ends_single, isTerminal_returnOp, Expr.alwaysReturns]
  | call callee args ih =>
    cases h with
    | call hall happlied =>
      have hargs : ∀ e ∈ args.map Arg.pushed, (e.outline current).ends = false := by
        refine hall.ends (fun e he => hcandid.part he) (fun e he _ _ _ h => ?_) happlied.leads
        obtain ⟨a, ha, rfl⟩ := List.mem_map.1 he
        exact ih a ha h (hcandid.part he)
      rw [Expr.outline, Arg.outlineAll_eq, Expr.ends_outlineAll _ hargs, Outline.ends_single, Expr.alwaysReturns]
      rfl

/-- The operation of a node follows its operands. -/
theorem Renders.of_operation {o : Operation} (h : Renders g current e lo f hi) (hnode : e.operation? = some o) :
    ∃ mid fs, RendersAll g current e.parts lo fs mid ∧ g.Applied o fs f ⟨mid⟩ := by
  cases h with
  | op hall happlied =>
    cases hnode
    exact ⟨_, _, hall, happlied⟩
  | call hall happlied =>
    cases hnode
    exact ⟨_, _, hall, happlied⟩
  | _ => cases hnode

/-- If its conditionals rejoin, then all of a tree is listed before what comes after it. -/
theorem Renders.gathered (h : Renders g current e lo f hi) (hcandid : e.Everywhere Expr.Candid)
    (hrejoins : e.Everywhere Expr.Rejoins) : (e.outline current).Gathered := by
  induction e using Expr.induction generalizing lo f hi with
  | int n | bytes b =>
    rw [Expr.outline]
    exact fun _ => rfl
  | op o args type returns ih =>
    cases h with
    | op hall _ =>
      rw [Expr.outline]
      exact hall.gathered (fun e he _ _ _ h => ih e he h (hcandid.part he) (hrejoins.part he)) (.single o)
  | seq items ih =>
    rw [Expr.outline]
    cases h with
    | empty hholds =>
      rw [Expr.outlineAll]
      exact fun _ => rfl
    | seq hseq => exact hseq.gathered fun e he _ _ _ h => ih e he h (hcandid.part he) (hrejoins.part he)
  | ifThen cond body ihcond ihbody =>
    cases h with
    | ifThen hcond _ _ =>
      rw [Expr.outline]
      exact (ihcond hcond (hcandid.part (by simp [Expr.parts])) (hrejoins.part (by simp [Expr.parts]))).andThen
        fun _ => rfl
  | ifElse cond yes no ihcond ihyes ihno =>
    have hcandidn := hcandid.part (q := no) (by simp [Expr.parts])
    cases h with
    | ifElse hcond hyes hno =>
      rw [Expr.outline]
      refine (ihcond hcond (hcandid.part (by simp [Expr.parts])) (hrejoins.part (by simp [Expr.parts]))).andThen ?_
      split
      · exact fun h => by cases h
      · refine .either (ihno hno hcandidn (hrejoins.part (by simp [Expr.parts]))) fun hends => ?_
        rw [hyes.ends (hcandid.part (by simp [Expr.parts]))]
        exact hrejoins.here ((hno.ends hcandidn).symm.trans hends)
  | ret value ih =>
    cases h with
    | ret hvalue _ =>
      rw [Expr.outline]
      exact (ih hvalue (hcandid.part (by simp [Expr.parts])) (hrejoins.part (by simp [Expr.parts]))).andThen
        (.single _)
  | retNothing =>
    rw [Expr.outline]
    exact .single _
  | call callee args ih =>
    cases h with
    | call hall _ =>
      rw [Expr.outline, Arg.outlineAll_eq]
      refine hall.gathered (fun e he _ _ _ h => ?_) (.single _)
      obtain ⟨a, ha, rfl⟩ := List.mem_map.1 he
      exact ih a ha h (hcandid.part he) (hrejoins.part he)

theorem RendersAll.gathered_all (h : RendersAll g current es lo fs hi) (hcandid : ∀ e ∈ es, e.Everywhere Expr.Candid)
    (hrejoins : ∀ e ∈ es, e.Everywhere Expr.Rejoins) : ∀ e ∈ es, (e.outline current).Gathered := by
  induction es generalizing lo fs with
  | nil => simp
  | cons e es ih =>
    cases h with
    | cons he hrest =>
      have hfirst := List.mem_cons_self (a := e) (l := es)
      exact List.forall_mem_cons.2 ⟨he.gathered (hcandid e hfirst) (hrejoins e hfirst),
        ih hrest (fun e he => hcandid e (List.mem_cons_of_mem _ he)) fun e he => hrejoins e (List.mem_cons_of_mem _ he)⟩

end Shape

section Lowered

variable {σ : Type} {c c' : Compiler σ} {e : Expr} {f : Fragment}

/-- What is listed of a lowered expression. -/
theorem flatten_lower (hlower : (lower e).run.run c = (.ok f, c')) :
    c'.graph.flatten f.entry = .ok (e.outline c.current).listing := by
  have hrendered := (lower_renders e c).of_ok hlower
  have hrenders := hrendered.renders c'.graph (((Grows.refl _ _).resumes _).imp (le_refl _) fun _ _ _ h => h.elim)
  exact hrenders.lists.flatten fun x hx => (hrendered.isOpen x hx).2

/-- What an operand has before the rest is listed in the order of the operands, and before the operation; what it has
after the rest is listed behind the operation, in the opposite order.  So if all conditionals rejoin, then the operands
are listed in their order, each as it is listed by itself, and the operation after all of them. -/
theorem operands_listed_in_order {o : Operation} (hnode : e.operation? = some o)
    (hlower : (lower e).run.run c = (.ok f, c')) :
    c'.graph.flatten f.entry = .ok (Expr.outlineAll c.current e.parts (.single o)).listing ∧
    ((∀ a ∈ e.parts, a.Everywhere Expr.Candid) →
      c'.graph.flatten f.entry = .ok (e.parts.flatMap (fun a => (a.outline c.current).before) ++ [o] ++
        e.parts.reverse.flatMap fun a => (a.outline c.current).after) ∧
      ((∀ a ∈ e.parts, a.Everywhere Expr.Rejoins) →
        c'.graph.flatten f.entry = .ok (e.parts.flatMap (fun a => (a.outline c.current).listing) ++ [o]))) ∧
    ∀ a ∈ e.parts, ∀ (d d' : Compiler σ) (own : Fragment), d.current = c.current →
      (lower a).run.run d = (.ok own, d') → d'.graph.flatten own.entry = .ok (a.outline c.current).listing := by
  have hflatten := flatten_lower hlower
  rw [Expr.outline_of_operation hnode] at hflatten
  have hrendered := (lower_renders e c).of_ok hlower
  have hrenders := hrendered.renders c'.graph (((Grows.refl _ _).resumes _).imp (le_refl _) fun _ _ _ h => h.elim)
  obtain ⟨mid, fs, hall, happlied⟩ := hrenders.of_operation hnode
  refine ⟨hflatten, fun hcandid => ?_, fun a _ d d' own hcurrent hown => hcurrent ▸ flatten_lower hown⟩
  have hends := hall.ends hcandid (fun a ha _ _ _ h => h.ends (hcandid a ha)) happlied.leads
  rw [Expr.listing_outlineAll _ hends, Outline.listing_single] at hflatten
  refine ⟨hflatten, fun hrejoins => ?_⟩
  have hgathered := hall.gathered_all hcandid hrejoins
  rw [hflatten, List.flatMap_congr fun a ha => Outline.listing_eq_before (hends a ha) (hgathered a ha)]
  have hafter : e.parts.reverse.flatMap (fun a => (a.outline c.current).after) = [] :=
    List.flatMap_eq_nil_iff.2 fun a ha => hgathered a (List.mem_reverse.1 ha) (hends a (List.mem_reverse.1 ha))
  rw [hafter, List.append_nil]

end Lowered

/-! ### An arm that returns -/

namespace Displaced

/-- A sum of which the first operand may return instead, in its second arm. -/
def node : Expr := .add (.ifElse (.int 1) (.int 2) (.ret (.int 3))) (.int 4)

/-- The same with the arms the other way round. -/
def mirrored : Expr := .add (.ifElse (.int 1) (.ret (.int 3)) (.int 2)) (.int 4)

def compiler : Compiler Unit := { key := 0, options := {}, slots := .empty 256, host := () }

def nodeGraph : BlockGraph where
  blocks := #[⟨[.int 1], .branch ⟨1⟩ ⟨3⟩ []⟩, ⟨[.int 2], .next ⟨2⟩⟩, ⟨[], .next ⟨5⟩⟩, ⟨[.int 3], .next ⟨4⟩⟩,
    ⟨[.ret], .terminal⟩, ⟨[.int 4], .next ⟨6⟩⟩, ⟨[.add], .opened⟩]

def mirroredGraph : BlockGraph where
  blocks := #[⟨[.int 1], .branch ⟨1⟩ ⟨4⟩ []⟩, ⟨[.int 3], .next ⟨2⟩⟩, ⟨[.ret], .terminal⟩, ⟨[], .next ⟨5⟩⟩,
    ⟨[.int 2], .next ⟨3⟩⟩, ⟨[.int 4], .next ⟨6⟩⟩, ⟨[.add], .opened⟩]

theorem lower_node :
    (lower node).run.run compiler = (.ok ⟨⟨0⟩, some ⟨6⟩⟩, { compiler with graph := nodeGraph }) := by
  cbv

theorem lower_mirrored :
    (lower mirrored).run.run compiler = (.ok ⟨⟨0⟩, some ⟨6⟩⟩, { compiler with graph := mirroredGraph }) := by
  cbv

theorem candid_node : ∀ a ∈ node.parts, a.Everywhere Expr.Candid :=
  List.forall_mem_cons.2 ⟨(Expr.Regular.ifElse (.int 1) (.int 2) (.ret (.int 3))).candid,
    List.forall_mem_singleton.2 (Expr.Regular.int 4).candid⟩

theorem candid_mirrored : ∀ a ∈ mirrored.parts, a.Everywhere Expr.Candid :=
  List.forall_mem_cons.2 ⟨(Expr.Regular.ifElse (.int 1) (.ret (.int 3)) (.int 2)).candid,
    List.forall_mem_singleton.2 (Expr.Regular.int 4).candid⟩

theorem rejoins_mirrored : ∀ a ∈ mirrored.parts, a.Everywhere Expr.Rejoins := by
  have hint : ∀ n, (Expr.int n).Everywhere Expr.Rejoins := fun n => .intro trivial (by simp [Expr.parts])
  have hret : (Expr.ret (.int 3)).Everywhere Expr.Rejoins := .intro trivial (by simp [Expr.parts, hint])
  refine List.forall_mem_cons.2 ⟨.intro (fun h => by cases h) ?_, List.forall_mem_singleton.2 (hint 4)⟩
  simp [Expr.parts, hint, hret]

end Displaced

open Displaced in
/-- If the second arm returns, then the second operand and the operation are listed before it, although it belongs to
the first operand; if the first arm returns, then the operands are listed in their order. -/
theorem operands_listed_in_order_displaced :
    nodeGraph.flatten ⟨0⟩ = .ok [.int 1, .int 2, .int 4, .add, .int 3, .ret] ∧
      mirroredGraph.flatten ⟨0⟩ = .ok [.int 1, .int 3, .ret, .int 2, .int 4, .add] := by
  obtain ⟨-, hnode, -⟩ := operands_listed_in_order (c := compiler) rfl lower_node
  obtain ⟨-, hmirrored, -⟩ := operands_listed_in_order (c := compiler) rfl lower_mirrored
  exact ⟨(hnode candid_node).1, (hmirrored candid_mirrored).2 rejoins_mirrored⟩

end Compiler

end ScratchMachine
