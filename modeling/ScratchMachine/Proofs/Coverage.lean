import ScratchMachine.Proofs.Spans

/-!
# Fragments without dead code

Control that enters a fragment may come to each of its operations.  This is kept by the ways of linking, as long as
every fragment that another one follows has an end.

* `BlockGraph.Sweeps`: control comes to all operations of a range of blocks.
* `BlockGraph.SweepAll.applied`: fragments in order and then an operation.
-/

namespace ScratchMachine

namespace BlockGraph

/-- From a block, control may come to all blocks with numbers from `lo` to below `hi` that have operations. -/
def Sweeps (g : BlockGraph) (lo hi : Nat) (entry : BlockId) : Prop :=
  ∀ id b, lo ≤ id.index → id.index < hi → g.block? id = some b → b.ops ≠ [] → g.Reaches entry id

variable {g : BlockGraph} {lo mid hi n : Nat} {entry entry' : BlockId}

theorem Sweeps.from (h : g.Sweeps lo hi entry) (hreach : g.Reaches entry' entry) : g.Sweeps lo hi entry' :=
  fun id b hlo hhi hb hops => hreach.trans (h id b hlo hhi hb hops)

theorem Sweeps.append (h : g.Sweeps lo mid entry) (h' : g.Sweeps mid hi entry) : g.Sweeps lo hi entry := by
  intro id b hlo hhi hb hops
  rcases Nat.lt_or_ge id.index mid with hlt | hge
  · exact h id b hlo hlt hb hops
  · exact h' id b hge hhi hb hops

theorem sweeps_single (hreach : g.Reaches entry ⟨n⟩) : g.Sweeps n (n + 1) entry := by
  intro id b hlo hhi _ _
  have heq : id.index = n := by omega
  subst heq
  exact hreach

/-- Control need not come to a block without operations. -/
theorem sweeps_nil {terminal : Bool} (hholds : g.Holds ⟨n⟩ [] terminal) : g.Sweeps n (n + 1) entry := by
  intro id b hlo hhi hb hops
  have heq : id.index = n := by omega
  subst heq
  obtain ⟨b', hb', hnil, -⟩ := hholds
  obtain rfl := Option.some.inj (hb.symm.trans hb')
  exact absurd hnil hops

/-- Fragments that lie one after another between two numbers of blocks, each without dead code. -/
def SweepAll (g : BlockGraph) : Nat → List Fragment → Nat → Prop
  | lo, [], hi => lo = hi
  | lo, f :: rest, hi => ∃ mid, g.Sweeps lo mid f.entry ∧ g.SweepAll mid rest hi

end BlockGraph

open BlockGraph Fragment

variable {g : BlockGraph} {lo hi lo' hi' : Nat} {f : Fragment}

/-- Through fragments that are linked in order control comes to all their operations, and to what follows them. -/
theorem BlockGraph.SweepAll.chained {first : Fragment} {rest : List Fragment} {last : Option BlockId} {own : BlockId}
    (h : g.SweepAll lo (first :: rest) hi) (hspans : ∀ f ∈ first :: rest, f.Spans g lo' hi')
    (hchained : g.Chained first.exit rest last) (hlinked : g.Linked last own) :
    g.Sweeps lo hi first.entry ∧ g.Reaches first.entry own := by
  induction rest generalizing first lo with
  | nil =>
    obtain ⟨mid, hsweeps, rfl⟩ := h
    obtain rfl : last = first.exit := hchained
    exact ⟨hsweeps, ((hspans first (List.mem_cons_self ..)).linked hlinked).1⟩
  | cons next rest ih =>
    obtain ⟨mid, hsweeps, hrest⟩ := h
    obtain ⟨hsweeps', hown⟩ := ih hrest (fun f hf => hspans f (List.mem_cons_of_mem _ hf)) hchained.2
    have hreach := ((hspans first (List.mem_cons_self ..)).linked hchained.1).1
    exact ⟨hsweeps.append (hsweeps'.from hreach), hreach.trans hown⟩

/-- The block of an operation comes after those of the fragments. -/
theorem BlockGraph.SweepAll.applied {op : Operation} {fragments : List Fragment} {n : Nat}
    (h : g.SweepAll lo fragments n) (hspans : ∀ f ∈ fragments, f.Spans g lo' hi')
    (happlied : g.Applied op fragments f ⟨n⟩) : g.Sweeps lo (n + 1) f.entry := by
  have hleads := happlied.leads
  cases fragments with
  | nil =>
    obtain rfl : lo = n := h
    have hentry : f.entry = ⟨lo⟩ := hleads
    rw [hentry]
    exact sweeps_single .refl
  | cons first rest =>
    obtain ⟨hentry, last, hchained, hlinked⟩ := hleads
    obtain ⟨hsweeps, hown⟩ := h.chained hspans hchained hlinked
    rw [hentry]
    exact hsweeps.append (sweeps_single hown)

end ScratchMachine
