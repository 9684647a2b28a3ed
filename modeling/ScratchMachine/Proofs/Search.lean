import Mathlib.Logic.Relation
import ScratchMachine.BlockGraph.Reachable
import ScratchMachine.Proofs.Fallible

/-!
# What the search finds

The depth-first search from an entry lists the entry first, lists every block that control can reach from it, and
lists no block twice.  `BlockGraph.Searching` is what holds of a search all along, and each of its three moves keeps
it.  Blocks that control can only go through one after another are listed in their order.
-/

namespace ScratchMachine.BlockGraph

/-- Control may get from one block to another. -/
def Reaches (g : BlockGraph) : BlockId → BlockId → Prop :=
  Relation.ReflTransGen fun id target => target ∈ g.successors id

/-- A search from `entry` on its way, with the frames on its path and the blocks it has met and completed. -/
structure Searching (g : BlockGraph) (entry : BlockId) (frames : List (BlockId × List BlockId))
    (seen done : List BlockId) : Prop where
  /-- The blocks met are those on the path and those completed. -/
  mem_seen : ∀ id, id ∈ seen ↔ id ∈ frames.map (·.1) ∨ id ∈ done
  nodup : (frames.map (·.1) ++ done).Nodup
  /-- The targets still to be explored are targets. -/
  pending : ∀ frame ∈ frames, ∀ t ∈ frame.2, t ∈ g.successors frame.1
  /-- All other targets of a block on the path have been met. -/
  explored : ∀ frame ∈ frames, ∀ t ∈ g.successors frame.1, t ∈ seen ∨ t ∈ frame.2
  closed : ∀ id ∈ done, ∀ t ∈ g.successors id, t ∈ seen
  reached : ∀ id ∈ seen, g.Reaches entry id

namespace Searching

variable {g : BlockGraph} {entry id target : BlockId} {targets seen done : List BlockId}
  {rest : List (BlockId × List BlockId)}

theorem start (g : BlockGraph) (entry : BlockId) :
    g.Searching entry [(entry, (g.successors entry).reverse)] [entry] [] where
  mem_seen := by simp
  nodup := by simp
  pending := by simp
  explored := by
    intro frame hframe t ht
    obtain rfl := List.mem_singleton.1 hframe
    exact .inr (List.mem_reverse.2 ht)
  closed := by simp
  reached := by
    intro id hid
    obtain rfl := List.mem_singleton.1 hid
    exact .refl

/-- A block without targets left is complete. -/
theorem complete (h : g.Searching entry ((id, []) :: rest) seen done) :
    g.Searching entry rest seen (id :: done) where
  mem_seen := by
    intro b
    rw [h.mem_seen b]
    simp only [List.map_cons, List.mem_cons]
    rw [or_assoc, or_left_comm]
  nodup := by
    have := h.nodup
    rw [List.map_cons, List.cons_append] at this
    exact (List.perm_middle.nodup_iff).2 this
  pending := fun frame hframe => h.pending frame (List.mem_cons_of_mem _ hframe)
  explored := fun frame hframe => h.explored frame (List.mem_cons_of_mem _ hframe)
  closed := by
    intro b hb t ht
    rcases List.mem_cons.1 hb with rfl | hb
    · rcases h.explored (b, []) (List.mem_cons_self ..) t ht with hseen | hnil
      · exact hseen
      · cases hnil
    · exact h.closed b hb t ht
  reached := h.reached

/-- A target that has been met is passed over. -/
theorem skip (h : g.Searching entry ((id, target :: targets) :: rest) seen done) (hseen : target ∈ seen) :
    g.Searching entry ((id, targets) :: rest) seen done where
  mem_seen := h.mem_seen
  nodup := h.nodup
  pending := by
    intro frame hframe t ht
    rcases List.mem_cons.1 hframe with rfl | hframe
    · exact h.pending _ (List.mem_cons_self ..) t (List.mem_cons_of_mem _ ht)
    · exact h.pending frame (List.mem_cons_of_mem _ hframe) t ht
  explored := by
    intro frame hframe t ht
    rcases List.mem_cons.1 hframe with rfl | hframe
    · rcases h.explored _ (List.mem_cons_self ..) t ht with hs | ht
      · exact .inl hs
      · rcases List.mem_cons.1 ht with rfl | ht
        · exact .inl hseen
        · exact .inr ht
    · exact h.explored frame (List.mem_cons_of_mem _ hframe) t ht
  closed := h.closed
  reached := h.reached

/-- A target that has not been met is explored next. -/
theorem enter (h : g.Searching entry ((id, target :: targets) :: rest) seen done) (hseen : target ∉ seen) :
    g.Searching entry ((target, (g.successors target).reverse) :: (id, targets) :: rest) (target :: seen) done where
  mem_seen := by
    intro b
    rw [List.mem_cons, h.mem_seen b]
    simp only [List.map_cons, List.mem_cons]
    exact or_assoc.symm
  nodup := by
    have hnot : target ∉ ((id, targets) :: rest).map (·.1) ++ done := by
      rw [List.mem_append]
      exact fun hmem => hseen ((h.mem_seen target).2 hmem)
    exact List.nodup_cons.2 ⟨hnot, h.nodup⟩
  pending := by
    intro frame hframe t ht
    rcases List.mem_cons.1 hframe with rfl | hframe
    · exact List.mem_reverse.1 ht
    · rcases List.mem_cons.1 hframe with rfl | hframe
      · exact h.pending _ (List.mem_cons_self ..) t (List.mem_cons_of_mem _ ht)
      · exact h.pending frame (List.mem_cons_of_mem _ hframe) t ht
  explored := by
    intro frame hframe t ht
    rcases List.mem_cons.1 hframe with rfl | hframe
    · exact .inr (List.mem_reverse.2 ht)
    · rcases List.mem_cons.1 hframe with rfl | hframe
      · rcases h.explored _ (List.mem_cons_self ..) t ht with hs | ht
        · exact .inl (List.mem_cons_of_mem _ hs)
        · rcases List.mem_cons.1 ht with rfl | ht
          · exact .inl (List.mem_cons_self ..)
          · exact .inr ht
      · exact (h.explored frame (List.mem_cons_of_mem _ hframe) t ht).imp_left (List.mem_cons_of_mem _)
  closed := fun b hb t ht => List.mem_cons_of_mem _ (h.closed b hb t ht)
  reached := by
    intro b hb
    rcases List.mem_cons.1 hb with rfl | hb
    · have hid : id ∈ seen := (h.mem_seen id).2 (.inl (by simp))
      exact (h.reached id hid).tail (h.pending _ (List.mem_cons_self ..) b (List.mem_cons_self ..))
    · exact h.reached b hb

/-- A search ends with no block on its path. -/
theorem visit {frames : List (BlockId × List BlockId)} (h : g.Searching entry frames seen done) :
    ∃ seen', g.Searching entry [] seen' (g.visit frames seen done) := by
  fun_induction BlockGraph.visit g frames seen done with
  | case1 seen done => exact ⟨seen, h⟩
  | case2 seen done id rest ih => exact ih h.complete
  | case3 seen done id target targets rest hseen ih => exact ih (h.skip (by simpa using hseen))
  | case4 seen done id target targets rest hseen ih => exact ih (h.enter (by simpa using hseen))

end Searching

/-! ### The blocks listed -/

theorem order_nodup (g : BlockGraph) (entry : BlockId) : (g.order entry).Nodup := by
  obtain ⟨seen, h⟩ := (Searching.start g entry).visit
  exact h.nodup

/-- The first block on the path of a search is completed last of all. -/
theorem head?_visit {g : BlockGraph} {first : BlockId} {frames : List (BlockId × List BlockId)} {seen done : List BlockId}
    (h : (frames.map (·.1)).getLast? = some first ∨ frames = [] ∧ done.head? = some first) :
    (g.visit frames seen done).head? = some first := by
  fun_induction visit g frames seen done with
  | case1 seen done =>
    rcases h with h | ⟨-, h⟩
    · cases h
    · exact h
  | case2 seen done id rest ih =>
    refine ih ?_
    rcases h with h | ⟨h, -⟩
    · cases rest with
      | nil => exact .inr ⟨rfl, by simpa using h⟩
      | cons frame rest => exact .inl (by simpa using h)
    · cases h
  | case3 seen done id target targets rest hseen ih =>
    refine ih (.inl ?_)
    rcases h with h | ⟨h, -⟩
    · simpa using h
    · cases h
  | case4 seen done id target targets rest hseen ih =>
    refine ih (.inl ?_)
    rcases h with h | ⟨h, -⟩
    · simpa using h
    · cases h

/-- The entry is listed first. -/
theorem head?_order (g : BlockGraph) (entry : BlockId) : (g.order entry).head? = some entry := head?_visit (.inl rfl)

/-- When nothing is left to do for the first block on the path, the search goes on as if it were not there. -/
theorem visit_concat (g : BlockGraph) (frames : List (BlockId × List BlockId)) (first : BlockId)
    (seen done : List BlockId) : g.visit (frames ++ [(first, [])]) seen done = first :: g.visit frames seen done := by
  fun_induction visit g frames seen done with
  | case1 seen done => rw [List.nil_append, visit, visit]
  | case2 seen done id rest ih => rw [List.cons_append, visit, ih]
  | case3 seen done id target targets rest hseen ih => rw [List.cons_append, visit, if_pos hseen, ← List.cons_append, ih]
  | case4 seen done id target targets rest hseen ih =>
    rw [List.cons_append, visit, if_neg hseen, ← List.cons_append, ← List.cons_append, ih]

/-- A search that has nowhere to go but to one new block goes on from there. -/
theorem visit_single {g : BlockGraph} {id next : BlockId} {seen : List BlockId} (h : g.successors id = [next])
    (hseen : next ∉ seen) :
    g.visit [(id, (g.successors id).reverse)] seen [] =
      id :: g.visit [(next, (g.successors next).reverse)] (next :: seen) [] := by
  have hcontains : ¬ seen.contains next = true := by simpa using hseen
  rw [h, List.reverse_singleton, visit, if_neg hcontains]
  exact visit_concat g [(next, (g.successors next).reverse)] id (next :: seen) []

/-- A search that goes on completes only blocks that control can reach from where it goes. -/
theorem mem_visit {g : BlockGraph} {frames : List (BlockId × List BlockId)} {seen done : List BlockId} {id : BlockId}
    (h : id ∈ g.visit frames seen done) :
    id ∈ done ∨ ∃ frame ∈ frames, id = frame.1 ∨ ∃ target ∈ frame.2, g.Reaches target id := by
  fun_induction visit g frames seen done with
  | case1 seen done => exact .inl h
  | case2 seen done last rest ih =>
    rcases ih h with hdone | ⟨frame, hframe, hreach⟩
    · rcases List.mem_cons.1 hdone with rfl | hdone
      · exact .inr ⟨_, List.mem_cons_self .., .inl rfl⟩
      · exact .inl hdone
    · exact .inr ⟨frame, List.mem_cons_of_mem _ hframe, hreach⟩
  | case3 seen done last target targets rest hseen ih =>
    refine (ih h).imp_right fun ⟨frame, hframe, hreach⟩ => ?_
    rcases List.mem_cons.1 hframe with rfl | hframe
    · exact ⟨_, List.mem_cons_self .., hreach.imp_right fun ⟨t, ht, hid⟩ => ⟨t, List.mem_cons_of_mem _ ht, hid⟩⟩
    · exact ⟨frame, List.mem_cons_of_mem _ hframe, hreach⟩
  | case4 seen done last target targets rest hseen ih =>
    refine (ih h).imp_right fun ⟨frame, hframe, hreach⟩ => ?_
    rcases List.mem_cons.1 hframe with rfl | hframe
    · refine ⟨_, List.mem_cons_self .., .inr ⟨target, List.mem_cons_self .., ?_⟩⟩
      rcases hreach with rfl | ⟨t, ht, hid⟩
      · exact .refl
      · exact hid.head (List.mem_reverse.1 ht)
    · rcases List.mem_cons.1 hframe with rfl | hframe
      · exact ⟨_, List.mem_cons_self .., hreach.imp_right fun ⟨t, ht, hid⟩ => ⟨t, List.mem_cons_of_mem _ ht, hid⟩⟩
      · exact ⟨frame, List.mem_cons_of_mem _ hframe, hreach⟩

/-- The blocks listed are those that control can reach. -/
theorem mem_order_iff {g : BlockGraph} {entry id : BlockId} : id ∈ g.order entry ↔ g.Reaches entry id := by
  obtain ⟨seen, h⟩ := (Searching.start g entry).visit
  have hseen : ∀ b, b ∈ seen ↔ b ∈ g.order entry := by
    intro b
    rw [h.mem_seen b]
    simp [order]
  constructor
  · exact fun hid => h.reached id ((hseen id).2 hid)
  · intro hid
    induction hid with
    | refl => exact List.mem_of_head? (head?_order g entry)
    | tail _ ht ih => exact (hseen _).1 (h.closed _ ih _ ht)

theorem trace_eq {g : BlockGraph} {entry : BlockId} {l : List (BlockId × Block)} (h : g.trace entry = .ok l) :
    l.map (·.1) = g.order entry ∧ ∀ x ∈ l, g.block? x.1 = some x.2 := by
  unfold trace at h
  generalize g.order entry = ids at h ⊢
  have hall := forall₂_of_mapM h
  clear h
  induction hall with
  | nil => simp
  | @cons id x ids l hx _ ih =>
    obtain ⟨b, hb, hx⟩ := except_bind_eq_ok.1 hx
    cases hx
    obtain ⟨hmap, hmem⟩ := ih
    refine ⟨by rw [List.map_cons, hmap], fun y hy => ?_⟩
    rcases List.mem_cons.1 hy with rfl | hy
    · exact block_eq_ok.1 hb
    · exact hmem y hy

/-- The blocks listed are found if the graph has all that control can reach. -/
theorem exists_trace {g : BlockGraph} {entry : BlockId} (h : ∀ id, g.Reaches entry id → ∃ b, g.block? id = some b) :
    ∃ l, g.trace entry = .ok l := by
  cases htrace : g.trace entry with
  | ok l => exact ⟨l, rfl⟩
  | error e =>
    obtain ⟨id, hid, hb⟩ := exists_of_mapM htrace
    obtain ⟨b, hblock⟩ := h id (mem_order_iff.1 hid)
    rw [block_eq_ok.2 hblock] at hb
    cases hb

end ScratchMachine.BlockGraph
