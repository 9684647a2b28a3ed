import ScratchMachine.Proofs.Evaluation
import ScratchMachine.Proofs.Layout
import ScratchMachine.Proofs.Linking

/-!
# What fragments mean

A fragment of a graph means a behaviour if control that enters it does just that, and then leaves by the exit of the
last block.  Linking fragments puts their meanings together as evaluation puts together those of the parts of a tree.

* `Fragment.Means.seq`, `Fragment.Means.ifThen`, `Fragment.Means.ifElse`: the ways of linking.
* `Fragment.Means.applied`: fragments in order and then an operation.
-/

namespace ScratchMachine

open Behaviour BlockGraph

/-! ### Graphs that can be laid out, block by block -/

/-- It is enough to look at one block and at the blocks that its exit leads to. -/
theorem BlockGraph.WellFormedFrom.of_block {g : BlockGraph} {id : BlockId} {b : Block} (hb : g.block? id = some b)
    (hplain : ∀ op ∈ b.ops, op.isJump = false)
    (hended : b.exit = .terminal → ∃ op, b.ops.getLast? = some op ∧ op.isTerminal = true)
    (htargets : ∀ target ∈ b.exit.targets, g.WellFormedFrom target) : g.WellFormedFrom id := by
  refine .of_within (fun i => i = id ∨ ∃ target ∈ b.exit.targets, g.Reaches target i) (.inl rfl) ?_
  rintro i (rfl | ⟨target, htarget, hreach⟩)
  · exact ⟨b, hb, hplain, hended, fun target htarget => .inr ⟨target, htarget, .refl⟩⟩
  · have hwell := htargets target htarget
    obtain ⟨b', hb'⟩ := hwell.closed i hreach
    refine ⟨b', hb', hwell.plain i b' hreach hb', hwell.ended i b' hreach hb', fun t ht => ?_⟩
    have hstep : t ∈ g.successors i := by
      rw [successors, hb']
      exact ht
    exact .inr ⟨target, htarget, hreach.tail hstep⟩

namespace Fragment

/-- In a graph a fragment means a behaviour, which may depend on that of the calls. -/
structure Means (g : BlockGraph) (f : Fragment) (b : Calls → Behaviour) : Prop where
  /-- Past it, control leaves by the exit of the last block. -/
  onward : ∀ x, f.exit = some x → ∃ last, g.block? x = some last ∧
    (∀ calls, g.Walks calls f.entry = (b calls).andThen (leaving (g.Walks calls) last.exit)) ∧
    (last.exit ≠ .terminal → (∀ target ∈ last.exit.targets, g.WellFormedFrom target) → g.WellFormedFrom f.entry)
  /-- Without an end of the fragment, control never gets past it. -/
  stops : f.exit = none →
    (∀ calls, (b calls).Stops ∧ g.Walks calls f.entry = b calls) ∧ g.WellFormedFrom f.entry

variable {g : BlockGraph} {f f' : Fragment} {b b' : Calls → Behaviour}

/-- Control goes on at the block that the end of the fragment is linked to. -/
theorem Means.linked (h : f.Means g b) {target : BlockId} (hlinked : g.Linked f.exit target) :
    (∀ calls, g.Walks calls f.entry = (b calls).andThen (g.Walks calls target)) ∧
      (g.WellFormedFrom target → g.WellFormedFrom f.entry) := by
  obtain ⟨x, hx, -, blk, hblk, hexit⟩ := hlinked
  obtain ⟨last, hlast, hwalks, hwell⟩ := h.onward x hx
  obtain rfl := Option.some.inj (hlast.symm.trans hblk)
  rw [hexit] at hwalks hwell
  refine ⟨hwalks, fun htarget => hwell (by simp) fun t ht => ?_⟩
  obtain rfl := List.mem_singleton.1 ht
  exact htarget

/-- The same holds if control never gets to the end of the fragment, or if the fragment has no end. -/
theorem Means.joined (h : f.Means g b) {join : BlockId} (hjoin : ∀ x, f.exit = some x → g.Linked f.exit join) :
    (∀ calls, g.Walks calls f.entry = (b calls).andThen (g.Walks calls join)) ∧
      (g.WellFormedFrom join → g.WellFormedFrom f.entry) := by
  cases hexit : f.exit with
  | some x => exact h.linked (hjoin x hexit)
  | none =>
    obtain ⟨hstops, hwell⟩ := h.stops hexit
    exact ⟨fun calls => by rw [(hstops calls).1.andThen, (hstops calls).2], fun _ => hwell⟩

theorem means_holds {id : BlockId} {ops : List Operation} {terminal : Bool} (hholds : g.Holds id ops terminal)
    (hplain : ∀ op ∈ ops, op.isJump = false)
    (hended : terminal = true → ∃ op, ops.getLast? = some op ∧ op.isTerminal = true) :
    Means g ⟨id, if terminal then none else some id⟩ fun calls => Operation.behaviourAll calls ops := by
  obtain ⟨blk, hblk, rfl, hexit⟩ := hholds
  cases terminal with
  | false =>
    refine ⟨fun x hx => ?_, fun hnone => by simp at hnone⟩
    cases hx
    refine ⟨blk, hblk, fun calls => walks_eq hblk, fun hne htargets => ?_⟩
    exact .of_block hblk hplain (fun h => absurd h hne) htargets
  | true =>
    refine ⟨fun x hx => by simp at hx, fun _ => ⟨fun calls => ?_, ?_⟩⟩
    · obtain ⟨op, hlast, hop⟩ := hended rfl
      have hstops := Linear.stops_behaviourAll hlast hop calls
      refine ⟨hstops, ?_⟩
      rw [walks_eq hblk, hstops.andThen]
    · refine .of_block hblk hplain (fun _ => hended rfl) fun target htarget => ?_
      rw [hexit rfl] at htarget
      cases htarget

theorem Means.seq (h : f.Means g b) (hlinked : g.Linked f.exit f'.entry) (h' : f'.Means g b') :
    Means g ⟨f.entry, f'.exit⟩ fun calls => (b calls).andThen (b' calls) := by
  obtain ⟨hwalks, hwell⟩ := h.linked hlinked
  refine ⟨fun x hx => ?_, fun hnone => ?_⟩
  · obtain ⟨last, hlast, hwalks', hwell'⟩ := h'.onward x hx
    refine ⟨last, hlast, fun calls => ?_, fun hne htargets => hwell (hwell' hne htargets)⟩
    rw [hwalks, hwalks', andThen_assoc]
  · obtain ⟨hstops, hwell'⟩ := h'.stops hnone
    refine ⟨fun calls => ⟨stops_andThen_right (hstops calls).1, ?_⟩, hwell hwell'⟩
    rw [hwalks, (hstops calls).2]

theorem Means.branched (h : f.Means g b) {x first second : BlockId} (hx : f.exit = some x)
    (hclosed : g.Closed x (.branch first second [])) :
    (∀ calls, g.Walks calls f.entry =
      (b calls).andThen (choose (g.Walks calls first) (g.Walks calls second))) ∧
      (g.WellFormedFrom first → g.WellFormedFrom second → g.WellFormedFrom f.entry) := by
  obtain ⟨-, blk, hblk, hexit⟩ := hclosed
  obtain ⟨last, hlast, hwalks, hwell⟩ := h.onward x hx
  obtain rfl := Option.some.inj (hlast.symm.trans hblk)
  rw [hexit] at hwalks hwell
  refine ⟨fun calls => ?_, fun hfirst hsecond => hwell (by simp) fun t ht => ?_⟩
  · rw [hwalks, leaving_branch_two]
  · rcases List.mem_cons.1 ht with rfl | ht
    · exact hfirst
    · obtain rfl := List.mem_singleton.1 ht
      exact hsecond

theorem Means.ifThen {cond body : Fragment} {bc bb : Calls → Behaviour} (hcond : cond.Means g bc)
    (hbody : body.Means g bb) {x join : BlockId} (hx : cond.exit = some x)
    (hbranch : g.Closed x (.branch body.entry join []))
    (hjoined : ∀ y, body.exit = some y → g.Linked body.exit join) (hjoin : g.Holds join [] false) :
    Means g ⟨cond.entry, some join⟩ fun calls => (bc calls).andThen (choose (bb calls) skip) := by
  obtain ⟨hwalks, hwell⟩ := hcond.branched hx hbranch
  obtain ⟨hwalks', hwell'⟩ := hbody.joined hjoined
  have hmeans := means_holds hjoin (by simp) (by simp)
  refine ⟨fun y hy => ?_, fun hnone => by cases hnone⟩
  obtain ⟨last, hlast, hskip, hwell''⟩ := hmeans.onward y hy
  refine ⟨last, hlast, fun calls => ?_, fun hne htargets => ?_⟩
  · have hrest := hskip calls
    rw [Operation.behaviourAll, skip_andThen] at hrest
    rw [hwalks, hwalks', andThen_assoc, choose_andThen, skip_andThen]
    rw [show g.Walks calls join = _ from hrest]
  · exact hwell (hwell' (hwell'' hne htargets)) (hwell'' hne htargets)

theorem Means.ifElse {cond yes no : Fragment} {bc by' bn : Calls → Behaviour} (hcond : cond.Means g bc)
    (hyes : yes.Means g by') (hno : no.Means g bn) {x join : BlockId} (hx : cond.exit = some x)
    (hbranch : g.Closed x (.branch yes.entry no.entry []))
    (hyes' : ∀ y, yes.exit = some y → g.Linked yes.exit join)
    (hno' : ∀ y, no.exit = some y → g.Linked no.exit join) (hjoin : g.Holds join [] false) {exit : Option BlockId}
    (hexit : exit = some join ∨ exit = none ∧ yes.exit = none ∧ no.exit = none) :
    Means g ⟨cond.entry, exit⟩ fun calls => (bc calls).andThen (choose (by' calls) (bn calls)) := by
  obtain ⟨hwalks, hwell⟩ := hcond.branched hx hbranch
  rcases hexit with rfl | ⟨rfl, hyesnone, hnonone⟩
  · obtain ⟨hwalksyes, hwellyes⟩ := hyes.joined hyes'
    obtain ⟨hwalksno, hwellno⟩ := hno.joined hno'
    have hmeans := means_holds hjoin (by simp) (by simp)
    refine ⟨fun y hy => ?_, fun hnone => by cases hnone⟩
    obtain ⟨last, hlast, hskip, hwell''⟩ := hmeans.onward y hy
    refine ⟨last, hlast, fun calls => ?_, fun hne htargets => ?_⟩
    · have hrest := hskip calls
      rw [Operation.behaviourAll, skip_andThen] at hrest
      rw [hwalks, hwalksyes, hwalksno, andThen_assoc, choose_andThen]
      rw [show g.Walks calls join = _ from hrest]
    · exact hwell (hwellyes (hwell'' hne htargets)) (hwellno (hwell'' hne htargets))
  · obtain ⟨hstopsyes, hwellyes⟩ := hyes.stops hyesnone
    obtain ⟨hstopsno, hwellno⟩ := hno.stops hnonone
    refine ⟨fun y hy => (by cases hy), fun _ => ⟨fun calls => ⟨?_, ?_⟩, hwell hwellyes hwellno⟩⟩
    · exact stops_andThen_right (stops_choose (hstopsyes calls).1 (hstopsno calls).1)
    · rw [hwalks, (hstopsyes calls).2, (hstopsno calls).2]

/-! ### Operation nodes -/

/-- Fragments that mean expressions, of the main program or of a subroutine. -/
def MeanAll (g : BlockGraph) (inSubroutine : Bool) : List Fragment → List Expr → Prop :=
  List.Forall₂ fun f e => f.Means g fun calls => e.behaviour calls inSubroutine

variable {inSubroutine : Bool}

private theorem means_of_chained {first : Fragment} {rest : List Fragment} {es : List Expr}
    {own : BlockId} {last exit : Option BlockId} (hfirst : first.Means g b)
    (hchained : g.Chained first.exit rest last) (hrest : MeanAll g inSubroutine rest es)
    (hlinked : g.Linked last own) (hown : Means g ⟨own, exit⟩ b') :
    Means g ⟨first.entry, exit⟩
      fun calls => (b calls).andThen ((Expr.behaviourAll calls inSubroutine es).andThen (b' calls)) := by
  induction hrest generalizing first b with
  | nil =>
    obtain rfl : last = first.exit := hchained
    have hlinked : g.Linked first.exit (Fragment.mk own exit).entry := hlinked
    have hseq := hfirst.seq hlinked hown
    simpa only [Expr.behaviourAll, skip_andThen] using hseq
  | @cons next e rest es hnext _ ih =>
    have hlinked' : g.Linked first.exit (Fragment.mk next.entry exit).entry := hchained.1
    have hseq := hfirst.seq hlinked' (ih hnext hchained.2)
    simpa only [Expr.behaviourAll, andThen_assoc] using hseq

theorem Means.applied {op : Operation} {fragments : List Fragment} {es : List Expr} {own : BlockId}
    (hall : MeanAll g inSubroutine fragments es) (happlied : g.Applied op fragments f own) (hop : op.isJump = false) :
    f.Means g fun calls => (Expr.behaviourAll calls inSubroutine es).andThen (op.behaviour calls) := by
  have hown := means_holds happlied.holds (by simpa using hop) fun h => ⟨op, rfl, h⟩
  rw [← happlied.exit] at hown
  simp only [Operation.behaviourAll, andThen_skip] at hown
  cases hall with
  | nil =>
    have hentry : f.entry = own := happlied.leads
    simp only [Expr.behaviourAll, skip_andThen]
    rwa [← hentry] at hown
  | @cons first e rest es hfirst hrest =>
    obtain ⟨hentry, last, hchained, hlinked⟩ := happlied.leads
    have hmeans := means_of_chained hfirst hchained hrest hlinked hown
    rw [← hentry] at hmeans
    simpa only [Expr.behaviourAll, andThen_assoc] using hmeans

/-! ### Whole fragments -/

/-- A fragment whose end is still open does what it means and nothing else. -/
theorem Means.walks (h : f.Means g b) (hopen : ∀ x, f.exit = some x → g.IsOpen x) :
    (∀ calls, g.Walks calls f.entry = b calls) ∧ g.WellFormedFrom f.entry := by
  cases hexit : f.exit with
  | none =>
    obtain ⟨hstops, hwell⟩ := h.stops hexit
    exact ⟨fun calls => (hstops calls).2, hwell⟩
  | some x =>
    obtain ⟨last, hlast, hwalks, hwell⟩ := h.onward x hexit
    obtain ⟨blk, hblk, hblkopen⟩ := hopen x hexit
    obtain rfl := Option.some.inj (hlast.symm.trans hblk)
    rw [hblkopen] at hwalks hwell
    refine ⟨fun calls => ?_, hwell (by simp) fun t ht => by cases ht⟩
    rw [hwalks, leaving_opened, andThen_skip]

end Fragment

end ScratchMachine
