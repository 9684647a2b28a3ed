import ScratchMachine.Proofs.Linking
import ScratchMachine.Proofs.Search

/-!
# The shape of fragments

Control that enters a fragment of blocks comes to its end or nowhere: no way through the blocks leads back to where it
has been, none leaves the fragment but at its end, and every other block has been linked.  This is kept by every way of
linking fragments, whatever the blocks do.

* `BlockGraph.Unrolls`: every way on from a block comes to an end, and all blocks on it have a property.
* `Fragment.Spans`: a fragment lies between two numbers of blocks and has its shape.
* `Fragment.Spans.seq`, `Fragment.Spans.ifThen`, `Fragment.Spans.ifElse`, `Fragment.Spans.applied`: the ways of linking.
-/

namespace ScratchMachine

/-- Whether the last operation of a block never falls through. -/
def Block.endsTerminal (b : Block) : Bool := b.ops.getLast?.any Operation.isTerminal

namespace BlockGraph

/-! ### Blocks that lead to an end -/

/-- Control may go from one block to another directly. -/
def Edge (g : BlockGraph) (id target : BlockId) : Prop := target ∈ g.successors id

/-- Every way on from a block comes to an end, and all blocks on it have a property. -/
inductive Unrolls (g : BlockGraph) (P : BlockId → Block → Prop) : BlockId → Prop
  | intro {id : BlockId} {b : Block} : g.block? id = some b → P id b → (∀ t ∈ b.exit.targets, Unrolls g P t) →
      Unrolls g P id

variable {g : BlockGraph} {P Q : BlockId → Block → Prop} {id id' : BlockId} {b : Block}

theorem mem_successors_iff (hb : g.block? id = some b) : id' ∈ g.successors id ↔ id' ∈ b.exit.targets := by
  rw [successors, hb]
  rfl

namespace Unrolls

theorem imp (h : g.Unrolls P id) (himp : ∀ id b, g.block? id = some b → P id b → Q id b) : g.Unrolls Q id := by
  induction h with
  | intro hb hP _ ih => exact .intro hb (himp _ _ hb hP) ih

theorem next (h : g.Unrolls P id) (hedge : g.Edge id id') : g.Unrolls P id' := by
  cases h with
  | intro hb _ htargets => exact htargets id' ((mem_successors_iff hb).1 hedge)

theorem reached (h : g.Unrolls P id) (hreach : g.Reaches id id') : g.Unrolls P id' := by
  induction hreach with
  | refl => exact h
  | tail _ hedge ih => exact ih.next hedge

theorem holds (h : g.Unrolls P id) : ∃ b, g.block? id = some b ∧ P id b := by
  cases h with
  | intro hb hP _ => exact ⟨_, hb, hP⟩

/-- No way leads back to where it began. -/
theorem acyclic (h : g.Unrolls P id) : ¬ Relation.TransGen g.Edge id id := by
  induction h with
  | intro hb _ _ ih =>
    intro hcycle
    obtain ⟨t, hedge, hback⟩ := Relation.TransGen.head'_iff.1 hcycle
    exact ih t ((mem_successors_iff hb).1 hedge) (Relation.TransGen.tail' hback hedge)

end Unrolls

/-! ### Blocks inside of a fragment -/

/-- A block with a number from `lo` to below `hi` has been linked, and it is marked as one that control never gets past
exactly if its last operation never falls through. -/
def Inner (lo hi : Nat) (id : BlockId) (b : Block) : Prop :=
  (lo ≤ id.index ∧ id.index < hi) ∧ b.exit ≠ .opened ∧ (b.exit = .terminal ↔ b.endsTerminal = true)

/-- The property holds at least of the blocks inside. -/
def Covers (g : BlockGraph) (lo hi : Nat) (P : BlockId → Block → Prop) : Prop :=
  ∀ id b, g.block? id = some b → Inner lo hi id b → P id b

theorem Inner.mono {lo hi lo' hi' : Nat} (h : Inner lo hi id b) (hlo : lo' ≤ lo) (hhi : hi ≤ hi') :
    Inner lo' hi' id b := ⟨⟨Nat.le_trans hlo h.1.1, Nat.lt_of_lt_of_le h.1.2 hhi⟩, h.2⟩

theorem covers_inner (g : BlockGraph) (lo hi : Nat) : g.Covers lo hi (Inner lo hi) := fun _ _ _ h => h

theorem Covers.mono {lo hi lo' hi' : Nat} (h : g.Covers lo' hi' P) (hlo : lo' ≤ lo) (hhi : hi ≤ hi') :
    g.Covers lo hi P := fun id b hb hinner => h id b hb (hinner.mono hlo hhi)

end BlockGraph

open BlockGraph

namespace Fragment

/-- The fragment lies in the blocks with numbers from `lo` to below `hi`.  Every way on from its entry comes to an end,
and all blocks on it are inside, except for the end of the fragment, if it has one. -/
structure Spans (g : BlockGraph) (lo hi : Nat) (f : Fragment) : Prop where
  /-- Control comes to the end of the fragment, and if every way on from there comes to an end, then every way through
  the fragment does. -/
  onward : ∀ x, f.exit = some x → (lo ≤ x.index ∧ x.index < hi) ∧ g.Reaches f.entry x ∧
    ∃ last, g.block? x = some last ∧ last.endsTerminal = false ∧
      ∀ P, g.Covers lo hi P → P x last → (∀ t ∈ last.exit.targets, g.Unrolls P t) → g.Unrolls P f.entry
  stops : f.exit = none → g.Unrolls (Inner lo hi) f.entry

variable {g : BlockGraph} {lo hi : Nat} {f f' : Fragment} {P : BlockId → Block → Prop}

theorem Spans.mono {lo' hi' : Nat} (h : f.Spans g lo hi) (hlo : lo' ≤ lo) (hhi : hi ≤ hi') : f.Spans g lo' hi' := by
  refine ⟨fun x hx => ?_, fun hnone => (h.stops hnone).imp fun _ _ _ hinner => hinner.mono hlo hhi⟩
  obtain ⟨hwithin, hreach, last, hlast, hends, honward⟩ := h.onward x hx
  exact ⟨⟨Nat.le_trans hlo hwithin.1, Nat.lt_of_lt_of_le hwithin.2 hhi⟩, hreach, last, hlast, hends,
    fun P hP => honward P (hP.mono hlo hhi)⟩

/-! ### Links -/

/-- The end of a fragment that has been linked is inside as well. -/
theorem Spans.closed (h : f.Spans g lo hi) {x : BlockId} {exit : Exit} (hx : f.exit = some x)
    (hclosed : g.Closed x exit) (hexit : exit ≠ .terminal) :
    g.Reaches f.entry x ∧ (∀ t ∈ exit.targets, g.Reaches f.entry t) ∧
      ∀ P, g.Covers lo hi P → (∀ t ∈ exit.targets, g.Unrolls P t) → g.Unrolls P f.entry := by
  obtain ⟨hopened, b, hb, rfl⟩ := hclosed
  obtain ⟨hwithin, hreach, last, hlast, hends, honward⟩ := h.onward x hx
  obtain rfl := Option.some.inj (hlast.symm.trans hb)
  refine ⟨hreach, fun t ht => hreach.tail ((mem_successors_iff hlast).2 ht), fun P hP htargets => ?_⟩
  refine honward P hP (hP x last hlast ⟨hwithin, hopened, ?_⟩) htargets
  simp [hexit, hends]

/-- Control goes on at the block that the end of the fragment is linked to. -/
theorem Spans.linked (h : f.Spans g lo hi) {target : BlockId} (hlinked : g.Linked f.exit target) :
    g.Reaches f.entry target ∧ ∀ P, g.Covers lo hi P → g.Unrolls P target → g.Unrolls P f.entry := by
  obtain ⟨x, hx, hclosed⟩ := hlinked
  obtain ⟨-, hreach, hunrolls⟩ := h.closed hx hclosed (by simp)
  refine ⟨hreach target (List.mem_singleton.2 rfl), fun P hP htarget => hunrolls P hP fun t ht => ?_⟩
  obtain rfl := List.mem_singleton.1 ht
  exact htarget

/-- The same holds of the ways through a fragment that may have no end. -/
theorem Spans.joined (h : f.Spans g lo hi) {join : BlockId} (hjoin : ∀ x, f.exit = some x → g.Linked f.exit join)
    (hP : g.Covers lo hi P) (hunrolls : g.Unrolls P join) : g.Unrolls P f.entry := by
  cases hexit : f.exit with
  | some x => exact (h.linked (hjoin x hexit)).2 P hP hunrolls
  | none => exact (h.stops hexit).imp hP

/-- A block by itself. -/
theorem spans_holds {id : BlockId} {ops : List Operation} {terminal : Bool} (hholds : g.Holds id ops terminal)
    (hends : ops.getLast?.any Operation.isTerminal = terminal) (hwithin : lo ≤ id.index ∧ id.index < hi) :
    Spans g lo hi ⟨id, if terminal then none else some id⟩ := by
  obtain ⟨b, hb, rfl, hexit⟩ := hholds
  cases terminal with
  | false =>
    refine ⟨fun x hx => ?_, fun hnone => by simp at hnone⟩
    cases hx
    exact ⟨hwithin, .refl, b, hb, hends, fun P _ hP htargets => .intro hb hP htargets⟩
  | true =>
    refine ⟨fun x hx => by simp at hx, fun _ => ?_⟩
    have hterminal := hexit rfl
    refine .intro hb ⟨hwithin, by simp [hterminal], by simp [hterminal, Block.endsTerminal, hends]⟩ fun t ht => ?_
    rw [hterminal] at ht
    cases ht

/-! ### Ways of linking -/

theorem Spans.seq (h : f.Spans g lo hi) (hlinked : g.Linked f.exit f'.entry) (h' : f'.Spans g lo hi) :
    Spans g lo hi ⟨f.entry, f'.exit⟩ := by
  obtain ⟨hreach, hunrolls⟩ := h.linked hlinked
  refine ⟨fun x hx => ?_, fun hnone => hunrolls _ (covers_inner g lo hi) (h'.stops hnone)⟩
  obtain ⟨hwithin, hreach', last, hlast, hends, honward⟩ := h'.onward x hx
  exact ⟨hwithin, hreach.trans hreach', last, hlast, hends,
    fun P hP hx htargets => hunrolls P hP (honward P hP hx htargets)⟩

/-- A condition whose end branches to two blocks. -/
theorem Spans.branched (h : f.Spans g lo hi) {x first second : BlockId} (hx : f.exit = some x)
    (hclosed : g.Closed x (.branch first second [])) :
    (g.Reaches f.entry first ∧ g.Reaches f.entry second) ∧
      ∀ P, g.Covers lo hi P → g.Unrolls P first → g.Unrolls P second → g.Unrolls P f.entry := by
  obtain ⟨-, hreach, hunrolls⟩ := h.closed hx hclosed (by simp)
  refine ⟨⟨hreach first (by simp [Exit.targets]), hreach second (by simp [Exit.targets])⟩,
    fun P hP hfirst hsecond => hunrolls P hP fun t ht => ?_⟩
  rcases List.mem_cons.1 ht with rfl | ht
  · exact hfirst
  · obtain rfl := List.mem_singleton.1 ht
    exact hsecond

theorem Spans.ifThen {cond body : Fragment} (hcond : cond.Spans g lo hi) (hbody : body.Spans g lo hi)
    {x join : BlockId} (hx : cond.exit = some x) (hbranch : g.Closed x (.branch body.entry join []))
    (hjoined : ∀ y, body.exit = some y → g.Linked body.exit join) (hjoin : g.Holds join [] false)
    (hwithin : lo ≤ join.index ∧ join.index < hi) : Spans g lo hi ⟨cond.entry, some join⟩ := by
  obtain ⟨⟨-, hreach⟩, hunrolls⟩ := hcond.branched hx hbranch
  have hspans := spans_holds hjoin rfl hwithin
  refine ⟨fun y hy => ?_, fun hnone => by cases hnone⟩
  obtain ⟨hwithin', hreach', last, hlast, hends, honward⟩ := hspans.onward y hy
  refine ⟨hwithin', hreach.trans hreach', last, hlast, hends, fun P hP hy htargets => ?_⟩
  have hjoinrolls := honward P hP hy htargets
  exact hunrolls P hP (hbody.joined hjoined hP hjoinrolls) hjoinrolls

theorem Spans.ifElse {cond yes no : Fragment} (hcond : cond.Spans g lo hi) (hyes : yes.Spans g lo hi)
    (hno : no.Spans g lo hi) {x join : BlockId} (hx : cond.exit = some x)
    (hbranch : g.Closed x (.branch yes.entry no.entry []))
    (hyes' : ∀ y, yes.exit = some y → g.Linked yes.exit join)
    (hno' : ∀ y, no.exit = some y → g.Linked no.exit join) (hjoin : g.Holds join [] false)
    (hwithin : lo ≤ join.index ∧ join.index < hi) {exit : Option BlockId}
    (hexit : exit = some join ∧ (yes.exit ≠ none ∨ no.exit ≠ none) ∨ exit = none ∧ yes.exit = none ∧ no.exit = none) :
    Spans g lo hi ⟨cond.entry, exit⟩ := by
  obtain ⟨⟨hreachyes, hreachno⟩, hunrolls⟩ := hcond.branched hx hbranch
  rcases hexit with ⟨rfl, hend⟩ | ⟨rfl, hyesnone, hnonone⟩
  · have hreach : g.Reaches cond.entry join := by
      rcases hend with hend | hend
      · obtain ⟨y, hy⟩ := Option.ne_none_iff_exists'.1 hend
        exact hreachyes.trans (hyes.linked (hyes' y hy)).1
      · obtain ⟨y, hy⟩ := Option.ne_none_iff_exists'.1 hend
        exact hreachno.trans (hno.linked (hno' y hy)).1
    have hspans := spans_holds hjoin rfl hwithin
    refine ⟨fun y hy => ?_, fun hnone => by cases hnone⟩
    obtain ⟨hwithin', hreach', last, hlast, hends, honward⟩ := hspans.onward y hy
    refine ⟨hwithin', hreach.trans hreach', last, hlast, hends, fun P hP hy htargets => ?_⟩
    have hjoinrolls := honward P hP hy htargets
    exact hunrolls P hP (hyes.joined hyes' hP hjoinrolls) (hno.joined hno' hP hjoinrolls)
  · exact ⟨fun y hy => (by cases hy),
      fun _ => hunrolls _ (covers_inner g lo hi) (hyes.stops hyesnone) (hno.stops hnonone)⟩

private theorem spans_of_chained {first : Fragment} {rest : List Fragment} {own : BlockId} {last exit : Option BlockId}
    (hfirst : first.Spans g lo hi) (hchained : g.Chained first.exit rest last) (hrest : ∀ f ∈ rest, f.Spans g lo hi)
    (hlinked : g.Linked last own) (hown : Spans g lo hi ⟨own, exit⟩) : Spans g lo hi ⟨first.entry, exit⟩ := by
  induction rest generalizing first with
  | nil =>
    obtain rfl : last = first.exit := hchained
    have hlinked : g.Linked first.exit (Fragment.mk own exit).entry := hlinked
    exact hfirst.seq hlinked hown
  | cons next rest ih =>
    have hlinked' : g.Linked first.exit (Fragment.mk next.entry exit).entry := hchained.1
    exact hfirst.seq hlinked' (ih (hrest next (List.mem_cons_self ..)) hchained.2
      fun f hf => hrest f (List.mem_cons_of_mem _ hf))

theorem Spans.applied {op : Operation} {fragments : List Fragment} {own : BlockId}
    (hall : ∀ f ∈ fragments, f.Spans g lo hi) (happlied : g.Applied op fragments f own)
    (hwithin : lo ≤ own.index ∧ own.index < hi) : f.Spans g lo hi := by
  have hown := spans_holds happlied.holds (by simp) hwithin
  rw [← happlied.exit] at hown
  cases fragments with
  | nil =>
    have hentry : f.entry = own := happlied.leads
    rwa [← hentry] at hown
  | cons first rest =>
    obtain ⟨hentry, last, hchained, hlinked⟩ := happlied.leads
    have hspans := spans_of_chained (hall first (List.mem_cons_self ..)) hchained
      (fun f hf => hall f (List.mem_cons_of_mem _ hf)) hlinked hown
    rwa [← hentry] at hspans

/-! ### Whole fragments -/

/-- What is known of a block that control can reach from the entry of a whole fragment: the end is the only one that is
open, and it is the last operation that tells whether control never gets past the block. -/
def Member (f : Fragment) (lo hi : Nat) (id : BlockId) (b : Block) : Prop :=
  (lo ≤ id.index ∧ id.index < hi) ∧ (b.exit = .opened ↔ f.exit = some id) ∧
    (b.exit = .terminal ↔ b.endsTerminal = true)

/-- If its end is still open, then a fragment is all there is. -/
theorem Spans.unrolls (h : f.Spans g lo hi) (hopen : ∀ x, f.exit = some x → g.IsOpen x) :
    g.Unrolls (f.Member lo hi) f.entry := by
  cases hexit : f.exit with
  | none =>
    refine (h.stops hexit).imp fun id b _ hinner => ⟨hinner.1, ?_, hinner.2.2⟩
    simp [hexit, hinner.2.1]
  | some x =>
    obtain ⟨hwithin, -, last, hlast, hends, honward⟩ := h.onward x hexit
    obtain ⟨b, hb, hbopen⟩ := hopen x hexit
    obtain rfl := Option.some.inj (hlast.symm.trans hb)
    refine honward _ (fun id b hb hinner => ⟨hinner.1, ?_, hinner.2.2⟩) ⟨hwithin, ?_, ?_⟩ fun t ht => ?_
    · -- a block inside is not the end, which is open
      refine ⟨fun hopened => absurd hopened hinner.2.1, fun hid => ?_⟩
      obtain rfl := Option.some.inj (hexit.symm.trans hid)
      obtain rfl := Option.some.inj (hlast.symm.trans hb)
      exact hbopen
    · simp [hbopen, hexit]
    · simp [hbopen, hends]
    · rw [hbopen] at ht
      cases ht

end Fragment

end ScratchMachine
