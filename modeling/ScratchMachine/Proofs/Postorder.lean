import ScratchMachine.Proofs.Listing
import ScratchMachine.Proofs.Precedence

/-!
# The search lists the blocks in reverse postorder

The search keeps its path on a stack of its own.  It lists what a recursive search through the targets of each block
completes, the last one first, on every graph.  So an edge that does not lead forward in the list closes a cycle.

* `BlockGraph.exists_explores`: the recursive search comes to an end, whatever it has met before.
* `BlockGraph.order_explores`: the search by a stack lists what the recursive search completes.
* `BlockGraph.reachable_reverse_postorder`: what is listed, and in which order.
-/

namespace ScratchMachine.BlockGraph

/-! ### The recursive search -/

/-- A search that has met some blocks goes through any targets and comes to an end. -/
theorem exists_explores (g : BlockGraph) : ∀ met targets : List BlockId, ∃ listed, g.Explores {id | id ∈ met} targets listed
  | _, [] => ⟨[], .nil⟩
  | met, target :: targets => by
    by_cases hmet : target ∈ met
    · obtain ⟨listed, hlisted⟩ := exists_explores g met targets
      exact ⟨listed, .skip hmet hlisted⟩
    · obtain ⟨inner, hinner⟩ := exists_explores g (target :: met) (g.successors target).reverse
      obtain ⟨listed, hlisted⟩ := exists_explores g (met ++ target :: inner) targets
      have hinsert : {id | id ∈ target :: met} = insert target {id | id ∈ met} := by
        ext id
        simp
      have hunion : {id | id ∈ met ++ target :: inner} = {id | id ∈ met} ∪ {id | id ∈ target :: inner} := by
        ext id
        simp
      rw [hinsert] at hinner
      rw [hunion] at hlisted
      exact ⟨listed ++ target :: inner, .enter hmet hinner hlisted⟩
termination_by met targets => (g.unseen met, targets.length)
decreasing_by
  · exact Prod.Lex.right _ (Nat.lt_succ_self _)
  · by_cases hindex : target.index < g.size
    · exact Prod.Lex.left _ _ (unseen_cons_lt hindex (by simpa using hmet))
    · -- a block that is not in the graph has no targets
      rw [successors_eq_nil hindex]
      exact Prod.Lex.right' _ (g.unseen_mono (List.subset_cons_self target met)) (Nat.succ_pos _)
  · exact Prod.Lex.right' _ (g.unseen_mono (List.subset_append_left met _)) (Nat.lt_succ_self _)

/-- The search by a stack lists what the recursive search completes. -/
theorem order_explores (g : BlockGraph) (entry : BlockId) : g.Explores ∅ [entry] (g.order entry) := by
  obtain ⟨listed, hlisted⟩ := exists_explores g [] [entry]
  have hnil : {id : BlockId | id ∈ ([] : List BlockId)} = ∅ := by
    ext id
    simp
  rw [hnil] at hlisted
  rwa [order_of_explores hlisted]

/-! ### Places in the list -/

private theorem idxOf_lt_idxOf {before after : List BlockId} {id later : BlockId}
    (hnodup : (before ++ id :: after).Nodup) (hlater : later ∈ after) :
    (before ++ id :: after).idxOf id < (before ++ id :: after).idxOf later := by
  obtain ⟨-, hrest, hdisjoint⟩ := List.nodup_append.1 hnodup
  have hid : id ∉ before := fun hmem => hdisjoint id hmem id (List.mem_cons_self ..) rfl
  have hlater' : later ∉ before := fun hmem => hdisjoint later hmem later (List.mem_cons_of_mem _ hlater) rfl
  have hne : id ≠ later := fun heq => (List.nodup_cons.1 hrest).1 (heq ▸ hlater)
  rw [List.idxOf_append_of_notMem hid, List.idxOf_append_of_notMem hlater', List.idxOf_cons_self, List.idxOf_cons_ne _ hne]
  omega

/-- A block stands before what it leads to, unless control may get back from there. -/
theorem idxOf_lt_or_reaches {g : BlockGraph} {entry id target : BlockId} (hid : id ∈ g.order entry)
    (hedge : g.Edge id target) :
    (g.order entry).idxOf id < (g.order entry).idxOf target ∨ g.Reaches target id := by
  obtain ⟨before, after, horder⟩ := List.append_of_mem hid
  refine (mem_after_or_reaches horder hedge).imp_left fun hafter => ?_
  have hnodup := g.order_nodup entry
  rw [horder] at hnodup ⊢
  exact idxOf_lt_idxOf hnodup hafter

/-! ### What is listed -/

/-- If the graph has all blocks that control can reach from an entry, these are listed as a recursive depth-first search
completes them, the last one first: the entry is first, none is listed twice and none else is listed.  A block stands
before what it leads to, unless control may get back from there; so without cycles every block stands before all that
it leads to. -/
theorem reachable_reverse_postorder {g : BlockGraph} {entry : BlockId}
    (h : ∀ id, g.Reaches entry id → id.index < g.size) :
    ∃ ids, g.reachable entry = .ok ids ∧ g.Explores ∅ [entry] ids ∧ ids.head? = some entry ∧ ids.Nodup ∧
      (∀ id, id ∈ ids ↔ g.Reaches entry id) ∧
      (∀ id ∈ ids, ∀ target ∈ g.successors id, ¬ ids.idxOf id < ids.idxOf target → g.Reaches target id) ∧
      (g.AcyclicFrom entry → ∀ id ∈ ids, ∀ target ∈ g.successors id, ids.idxOf id < ids.idxOf target) := by
  obtain ⟨l, htrace⟩ := exists_trace fun id hid => Option.isSome_iff_exists.1 (block?_isSome.2 (h id hid))
  have hreachable : g.reachable entry = .ok (g.order entry) := by
    rw [reachable, htrace, ← (trace_eq htrace).1]
    rfl
  refine ⟨g.order entry, hreachable, g.order_explores entry, g.head?_order entry, g.order_nodup entry,
    fun id => mem_order_iff, fun id hid target hedge hplace => ?_, fun hacyclic id hid target hedge => ?_⟩
  · exact (idxOf_lt_or_reaches hid hedge).resolve_left hplace
  · exact (idxOf_lt_or_reaches hid hedge).resolve_right (hacyclic.not_reaches (mem_order_iff.1 hid) hedge)

/-- If no block leads out of the graph, control does not get out of it. -/
theorem index_lt_of_reaches {g : BlockGraph} {entry id : BlockId} (hentry : entry.index < g.size)
    (hclosed : ∀ b ∈ g.blocks, ∀ target ∈ b.successors, target.index < g.size) (hid : g.Reaches entry id) :
    id.index < g.size := by
  induction hid with
  | refl => exact hentry
  | @tail id target _ htarget _ =>
    unfold successors at htarget
    split at htarget
    · rename_i b hb
      exact hclosed b (Array.mem_of_getElem? hb) target htarget
    · cases htarget

/-- A branch with a target named twice, a block that leads to itself, and a way back to the start. -/
def looping : BlockGraph :=
  ⟨#[⟨[], .branch ⟨1⟩ ⟨2⟩ [⟨1⟩]⟩, ⟨[], .next ⟨3⟩⟩, ⟨[], .branch ⟨2⟩ ⟨3⟩ []⟩, ⟨[], .next ⟨0⟩⟩]⟩

/-- Two arms that meet. -/
def meeting : BlockGraph := ⟨#[⟨[], .branch ⟨2⟩ ⟨1⟩ []⟩, ⟨[], .next ⟨3⟩⟩, ⟨[], .next ⟨3⟩⟩, ⟨[], .opened⟩]⟩

theorem acyclicFrom_meeting : meeting.AcyclicFrom ⟨0⟩ := by
  have hjoin : meeting.Unrolls (fun _ _ => True) ⟨3⟩ := .intro rfl trivial fun _ ht => (List.not_mem_nil ht).elim
  have hfirst : meeting.Unrolls (fun _ _ => True) ⟨1⟩ :=
    .intro rfl trivial fun _ ht => List.mem_singleton.1 ht ▸ hjoin
  have hsecond : meeting.Unrolls (fun _ _ => True) ⟨2⟩ :=
    .intro rfl trivial fun _ ht => List.mem_singleton.1 ht ▸ hjoin
  have hboth : ∀ t ∈ [(⟨2⟩ : BlockId), ⟨1⟩], meeting.Unrolls (fun _ _ => True) t := by simp [hfirst, hsecond]
  have hentry : meeting.Unrolls (fun _ _ => True) ⟨0⟩ := .intro rfl trivial hboth
  exact hentry.acyclicFrom

/-- In the first graph the edge from block 3 to block 0 leads backward, so control may get from 0 to 3.  The second graph
has no cycles, and all edges lead forward. -/
theorem reachable_reverse_postorder_looping :
    (∀ id, looping.Reaches ⟨0⟩ id → id.index < looping.size) ∧
      looping.reachable ⟨0⟩ = .ok [⟨0⟩, ⟨2⟩, ⟨1⟩, ⟨3⟩] ∧ looping.Reaches ⟨0⟩ ⟨3⟩ ∧
    (∀ id, meeting.Reaches ⟨0⟩ id → id.index < meeting.size) ∧
      meeting.reachable ⟨0⟩ = .ok [⟨0⟩, ⟨2⟩, ⟨1⟩, ⟨3⟩] ∧
      ∀ id ∈ [(⟨0⟩ : BlockId), ⟨2⟩, ⟨1⟩, ⟨3⟩], ∀ target ∈ meeting.successors id,
        [⟨0⟩, ⟨2⟩, ⟨1⟩, ⟨3⟩].idxOf id < [⟨0⟩, ⟨2⟩, ⟨1⟩, ⟨3⟩].idxOf target := by
  have hlooping : ∀ id, looping.Reaches ⟨0⟩ id → id.index < looping.size :=
    fun id => index_lt_of_reaches (by decide) (by decide)
  have hmeeting : ∀ id, meeting.Reaches ⟨0⟩ id → id.index < meeting.size :=
    fun id => index_lt_of_reaches (by decide) (by decide)
  obtain ⟨ids, hids, -, -, -, -, hback, -⟩ := reachable_reverse_postorder hlooping
  obtain ⟨ids', hids', -, -, -, -, -, hforward⟩ := reachable_reverse_postorder hmeeting
  have horder : looping.reachable ⟨0⟩ = .ok [⟨0⟩, ⟨2⟩, ⟨1⟩, ⟨3⟩] := by cbv
  have horder' : meeting.reachable ⟨0⟩ = .ok [⟨0⟩, ⟨2⟩, ⟨1⟩, ⟨3⟩] := by cbv
  obtain rfl := Except.ok.inj (hids.symm.trans horder)
  obtain rfl := Except.ok.inj (hids'.symm.trans horder')
  exact ⟨hlooping, horder, hback ⟨3⟩ (by decide) ⟨0⟩ (by decide) (by decide), hmeeting, horder',
    hforward acyclicFrom_meeting⟩

end ScratchMachine.BlockGraph
