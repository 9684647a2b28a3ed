import ScratchMachine.Proofs.Spans

/-!
# Blocks are listed before those they lead to

The search lists a block only after all that it leads to have been completed, unless one of these leads back to it.  So
in a graph without cycles every block stands before the blocks that control may go to from there: where arms meet
comes after the arms, in whatever order these are listed.

* `BlockGraph.Settling`: what holds of a search all along, beside `BlockGraph.Searching`.
* `BlockGraph.precedes`: what leads to a block is listed before it.
-/

namespace ScratchMachine.BlockGraph

/-- A search on its way: control may get from every block on its path to those further on, and a completed block
leads to blocks completed before, or to such from which control may get back. -/
structure Settling (g : BlockGraph) (entry : BlockId) (frames : List (BlockId × List BlockId))
    (seen done : List BlockId) : Prop extends g.Searching entry frames seen done where
  path : (frames.map (·.1)).Pairwise fun later earlier => g.Reaches earlier later
  settled : ∀ before id after, done = before ++ id :: after → ∀ t ∈ g.successors id, t ∈ after ∨ g.Reaches t id

namespace Settling

variable {g : BlockGraph} {entry id target : BlockId} {targets seen done : List BlockId}
  {rest : List (BlockId × List BlockId)}

theorem start (g : BlockGraph) (entry : BlockId) :
    g.Settling entry [(entry, (g.successors entry).reverse)] [entry] [] where
  toSearching := .start g entry
  path := by simp
  settled := by simp

theorem complete (h : g.Settling entry ((id, []) :: rest) seen done) : g.Settling entry rest seen (id :: done) where
  toSearching := h.toSearching.complete
  path := (List.pairwise_cons.1 h.path).2
  settled := by
    intro before id' after hsplit t ht
    cases before with
    | cons first before => exact h.settled before id' after (List.cons.inj hsplit).2 t ht
    | nil =>
      obtain ⟨rfl, rfl⟩ := List.cons.inj hsplit
      -- no target is left to explore, so this one has been met: it is completed, or on the path
      have hseen : t ∈ seen := (h.explored _ (List.mem_cons_self ..) t ht).resolve_right List.not_mem_nil
      rcases (h.mem_seen t).1 hseen with hframe | hdone
      · rcases List.mem_cons.1 hframe with rfl | hframe
        · exact .inr .refl
        · exact .inr ((List.pairwise_cons.1 h.path).1 t hframe)
      · exact .inl hdone

theorem skip (h : g.Settling entry ((id, target :: targets) :: rest) seen done) (hseen : target ∈ seen) :
    g.Settling entry ((id, targets) :: rest) seen done where
  toSearching := h.toSearching.skip hseen
  path := h.path
  settled := h.settled

theorem enter (h : g.Settling entry ((id, target :: targets) :: rest) seen done) (hseen : target ∉ seen) :
    g.Settling entry ((target, (g.successors target).reverse) :: (id, targets) :: rest) (target :: seen) done where
  toSearching := h.toSearching.enter hseen
  path := by
    have hedge : g.Edge id target := h.pending _ (List.mem_cons_self ..) target (List.mem_cons_self ..)
    refine List.pairwise_cons.2 ⟨fun earlier hearlier => ?_, h.path⟩
    rcases List.mem_cons.1 hearlier with rfl | hearlier
    · exact .single hedge
    · exact ((List.pairwise_cons.1 h.path).1 earlier hearlier).tail hedge
  settled := h.settled

theorem visit {frames : List (BlockId × List BlockId)} (h : g.Settling entry frames seen done) :
    ∃ seen', g.Settling entry [] seen' (g.visit frames seen done) := by
  fun_induction BlockGraph.visit g frames seen done with
  | case1 seen done => exact ⟨seen, h⟩
  | case2 seen done id rest ih => exact ih h.complete
  | case3 seen done id target targets rest hseen ih => exact ih (h.skip (by simpa using hseen))
  | case4 seen done id target targets rest hseen ih => exact ih (h.enter (by simpa using hseen))

end Settling

/-- No block that control can reach from the entry leads back to itself. -/
def AcyclicFrom (g : BlockGraph) (entry : BlockId) : Prop :=
  ∀ id, g.Reaches entry id → ¬ Relation.TransGen g.Edge id id

theorem Unrolls.acyclicFrom {g : BlockGraph} {P : BlockId → Block → Prop} {entry : BlockId} (h : g.Unrolls P entry) :
    g.AcyclicFrom entry := fun _ hreach => (h.reached hreach).acyclic

section Precedence

variable {g : BlockGraph} {entry id target : BlockId} {before after : List BlockId}

/-- A block is listed before what it leads to, unless control may get back from there. -/
theorem mem_after_or_reaches (horder : g.order entry = before ++ id :: after) (hedge : g.Edge id target) :
    target ∈ after ∨ g.Reaches target id := by
  obtain ⟨seen, h⟩ := (Settling.start g entry).visit
  exact h.settled before id after horder target hedge

/-- Control that may get back from where a block leads goes round a cycle. -/
theorem AcyclicFrom.not_reaches (hacyclic : g.AcyclicFrom entry) (hid : g.Reaches entry id) (hedge : g.Edge id target) :
    ¬ g.Reaches target id := fun hback => hacyclic id hid (Relation.TransGen.head' hedge hback)

/-- Without cycles, a block is listed before all that it leads to. -/
theorem mem_after_of_edge (hacyclic : g.AcyclicFrom entry) (horder : g.order entry = before ++ id :: after)
    (hedge : g.Edge id target) : target ∈ after := by
  have hid : g.Reaches entry id := mem_order_iff.1 (by rw [horder]; simp)
  exact (mem_after_or_reaches horder hedge).resolve_right (hacyclic.not_reaches hid hedge)

/-- Without cycles, all that leads to a block is listed before it. -/
theorem precedes (hacyclic : g.AcyclicFrom entry) (horder : g.order entry = before ++ target :: after)
    (hid : g.Reaches entry id) (hedge : g.Edge id target) : id ∈ before := by
  have hmem : id ∈ before ++ target :: after := horder ▸ mem_order_iff.2 hid
  refine (List.mem_append.1 hmem).resolve_right fun hlater => ?_
  obtain ⟨between, after', hsplit⟩ := List.append_of_mem hlater
  -- otherwise the target would be listed once more, after the block
  have horder' : g.order entry = (before ++ between) ++ id :: after' := by rw [horder, hsplit, List.append_assoc]
  have htarget : target ∈ after' := mem_after_of_edge hacyclic horder' hedge
  have hnodup : (target :: after).Nodup := (List.nodup_append.1 (horder ▸ order_nodup g entry)).2.1
  cases between with
  | nil =>
    obtain ⟨rfl, rfl⟩ := List.cons.inj hsplit
    exact (List.nodup_cons.1 hnodup).1 htarget
  | cons first between =>
    obtain ⟨rfl, rfl⟩ := List.cons.inj hsplit
    exact (List.nodup_cons.1 hnodup).1 (by simp [htarget])

/-- What leads to one of the first blocks is listed before the last of these. -/
theorem mem_of_edge (hacyclic : g.AcyclicFrom entry) {last : BlockId}
    (horder : g.order entry = before ++ last :: after) (hid : g.Reaches entry id) (hedge : g.Edge id target)
    (htarget : target ∈ before ++ [last]) : id ∈ before := by
  rcases List.mem_append.1 htarget with hbefore | hlast
  · obtain ⟨init, rest, rfl⟩ := List.append_of_mem hbefore
    have horder' : g.order entry = init ++ target :: (rest ++ last :: after) := by rw [horder]; simp
    exact List.mem_append_left _ (precedes hacyclic horder' hid hedge)
  · obtain rfl := List.mem_singleton.1 hlast
    exact precedes hacyclic horder hid hedge

end Precedence

end ScratchMachine.BlockGraph
