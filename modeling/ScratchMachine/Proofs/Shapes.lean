import ScratchMachine.Proofs.Refusals

/-!
# The fragments that lowering makes

Whether it succeeds or is refused, lowering leaves the blocks that were there as they are, and it is not refused
because blocks were put together wrongly.  If it succeeds, then control that enters the fragment stays in new blocks,
never comes back to where it has been, and comes to an open block only at the end of the fragment, which there is
unless the expression always returns.

* `Fragment.Shaped`: what is to be said of the blocks that control can reach from the entry of a fragment.
* `Compiler.lower_shapes`: lowering makes such fragments.
-/

namespace ScratchMachine

open BlockGraph

/-- Of the blocks that control can reach from the entry of a fragment, in a graph that had `n` blocks before. -/
structure Fragment.Shaped (g : BlockGraph) (n : Nat) (f : Fragment) : Prop where
  /-- All of them are new, and they are there. -/
  fresh : ∀ id, g.Reaches f.entry id → n ≤ id.index ∧ id.index < g.size
  /-- No way leads from one of them back to itself. -/
  acyclic : ∀ id, g.Reaches f.entry id → ¬ Relation.TransGen g.Edge id id
  /-- The end is one of them, if there is one. -/
  end_reached : ∀ x, f.exit = some x → g.Reaches f.entry x
  /-- The end is open, and none of the others is. -/
  opened_iff : ∀ id b, g.Reaches f.entry id → g.block? id = some b → (b.exit = .opened ↔ f.exit = some id)
  /-- Those that control never gets past are those whose last operation never falls through. -/
  terminal_iff : ∀ id b, g.Reaches f.entry id → g.block? id = some b → (b.exit = .terminal ↔ b.endsTerminal = true)

/-- A fragment that spans the new blocks of a graph and whose end is open has its shape. -/
theorem Fragment.Spans.shaped {g : BlockGraph} {n : Nat} {f : Fragment} (h : f.Spans g n g.size)
    (hopen : ∀ x, f.exit = some x → g.IsOpen x) : f.Shaped g n := by
  have hunrolls := h.unrolls hopen
  have hmember : ∀ id b, g.Reaches f.entry id → g.block? id = some b → f.Member n g.size id b := by
    intro id b hreach hb
    obtain ⟨b', hb', hmember⟩ := (hunrolls.reached hreach).holds
    obtain rfl := Option.some.inj (hb.symm.trans hb')
    exact hmember
  refine ⟨fun id hreach => ?_, fun id hreach => (hunrolls.reached hreach).acyclic, fun x hx => (h.onward x hx).2.1,
    fun id b hreach hb => (hmember id b hreach hb).2.1, fun id b hreach hb => (hmember id b hreach hb).2.2⟩
  obtain ⟨b, hb, hmember⟩ := (hunrolls.reached hreach).holds
  exact hmember.1

namespace Compiler

variable {σ : Type} {c c' : Compiler σ} {e : Expr} {answer : Except CompileError Fragment}

theorem keeps_blocks (h : (lower e).run.run c = (answer, c')) (id : BlockId) (b : Block)
    (hb : c.graph.block? id = some b) : c'.graph.block? id = some b := by
  have hensures := lower_ensures e c
  unfold Fallible.Ensures at hensures
  rw [h] at hensures
  have hadvances : Advances c.graph.size c c' := by
    cases answer with
    | ok f => exact hensures.advances
    | error error => exact hensures
  rw [hadvances.grows.keeps id (index_lt_size hb), hb]

/-- From any state, lowering a tree whose operation nodes state rightly whether control gets past them leaves every
block as it was and is not refused because blocks were put together wrongly; if it succeeds, then the fragment has its
shape, and it has no end exactly if the tree always returns. -/
theorem lower_shapes (he : e.Everywhere Expr.Candid) (h : (lower e).run.run c = (answer, c')) :
    (∀ id b, c.graph.block? id = some b → c'.graph.block? id = some b) ∧
      (∀ error, answer = .error error → error.isMislink = false) ∧
      ∀ f, answer = .ok f → f.Shaped c'.graph c.graph.size ∧ (f.exit = none ↔ e.alwaysReturns = true) := by
  refine ⟨keeps_blocks h, fun error herror => ?_, fun f hf => ?_⟩
  · subst herror
    exact linksWell_lower e c error c' h
  · subst hf
    have hlowered := (lower_ensures e c).of_ok h
    exact ⟨(hlowered.spans he _ (.refl _)).shaped fun x hx => (hlowered.isOpen x hx).2, hlowered.exit_iff he⟩

namespace EarlyExit

/-- A conditional with an arm that ends the program. -/
def conditional : Expr := .seq [.ifElse (.int 1) (.ret (.int 2)) (.seq []), .int 3]

def compiler : Compiler Unit := { key := 0, options := {}, slots := .empty 256, host := () }

def blocks : BlockGraph :=
  ⟨#[⟨[.int 1], .branch ⟨1⟩ ⟨4⟩ []⟩, ⟨[.int 2], .next ⟨2⟩⟩, ⟨[.ret], .terminal⟩, ⟨[], .next ⟨5⟩⟩, ⟨[], .next ⟨3⟩⟩,
    ⟨[.int 3], .opened⟩]⟩

theorem lower_conditional :
    (lower conditional).run.run compiler = (.ok ⟨⟨0⟩, some ⟨5⟩⟩, { compiler with graph := blocks }) := by
  cbv

end EarlyExit

open EarlyExit in
/-- The arm that goes on leads to the end, and the other does not. -/
theorem lower_shapes_earlyExit : Fragment.Shaped blocks 0 ⟨⟨0⟩, some ⟨5⟩⟩ ∧ conditional.alwaysReturns = false := by
  have hcandid : conditional.Everywhere Expr.Candid := by
    refine Expr.Regular.candid (.seq fun e he => ?_)
    simp only [List.mem_cons, List.not_mem_nil, or_false] at he
    rcases he with rfl | rfl
    · exact .ifElse (.int 1) (.ret (.int 2)) (.seq (by simp))
    · exact .int 3
  obtain ⟨-, -, hok⟩ := lower_shapes hcandid lower_conditional
  obtain ⟨hshaped, hexit⟩ := hok _ rfl
  refine ⟨hshaped, ?_⟩
  rw [← Bool.not_eq_true, ← hexit]
  simp

end Compiler

end ScratchMachine
