import ScratchMachine.Compiler.Lowering
import ScratchMachine.Proofs.Additions

/-!
# What the steps of lowering do

Lowering adds blocks to the graph and subroutines to those that wait, and leaves everything else as it was, in particular
all blocks that were there before.  Each of its steps does so whether it succeeds or fails.

* `Compiler.Alike`: compilers that differ in nothing but these.
* `Compiler.Advances`: what may change while blocks are added.
* `Compiler.emit_ensures`, `Compiler.seq_ensures`, `Compiler.joinArm_ensures`, `Compiler.enqueue_ensures`: the steps.
-/

namespace ScratchMachine.Compiler

open BlockGraph Fallible

variable {σ : Type}

/-! ### What may change -/

/-- Nothing but the graph and the subroutines that wait is different. -/
def Alike (c c' : Compiler σ) : Prop := c' = { c with graph := c'.graph, pending := c'.pending }

theorem Alike.refl (c : Compiler σ) : c.Alike c := rfl

theorem Alike.trans {c c' c'' : Compiler σ} (h : c.Alike c') (h' : c'.Alike c'') : c.Alike c'' := by
  rw [Alike, h', h]

/-- From one state to another, nothing changed but the graph, from block `n` on, and the subroutines that wait. -/
structure Advances (n : Nat) (c c' : Compiler σ) : Prop where
  rest : c' = { c with graph := c'.graph, pending := c'.pending }
  grows : Grows n c.graph c'.graph
  awaiting : c.pending ⊆ c'.pending

namespace Advances

variable {n n' : Nat} {c c' c'' : Compiler σ}

theorem refl (n : Nat) (c : Compiler σ) : Advances n c c := ⟨rfl, .refl n c.graph, List.Subset.refl _⟩

theorem trans (h : Advances n c c') (h' : Advances n c' c'') : Advances n c c'' := by
  refine ⟨?_, h.grows.trans h'.grows, List.Subset.trans h.awaiting h'.awaiting⟩
  rw [h'.rest, h.rest]

theorem mono (h : Advances n c c') (hle : n' ≤ n) : Advances n' c c' :=
  ⟨h.rest, h.grows.mono hle, h.awaiting⟩

theorem size_le (h : Advances n c c') : c.graph.size ≤ c'.graph.size := h.grows.extends'.size_le

theorem andThen (h : Advances n c c') (h' : Advances c'.graph.size c' c'') (hn : n ≤ c.graph.size) :
    Advances n c c'' := h.trans (h'.mono (Nat.le_trans hn h.size_le))

theorem extends' (h : Advances n c c') : c.graph.Extends c'.graph := h.grows.extends'

theorem alike (h : Advances n c c') : c.Alike c' := h.rest

theorem current_eq (h : Advances n c c') : c'.current = c.current := by rw [h.rest]

end Advances

theorem onGraph_ensures {α : Type} {action : Linking α} {c : Compiler σ} {ok : α → BlockGraph → Prop}
    {failed : BlockGraph → Prop} (h : Ensures action c.graph ok failed) :
    Ensures (onGraph action) c (fun a c' => c' = { c with graph := c'.graph } ∧ ok a c'.graph)
      fun c' => c' = { c with graph := c'.graph } ∧ failed c'.graph := by
  have hrun : (onGraph (σ := σ) action).run.run c =
      ((action.run.run c.graph).1, { c with graph := (action.run.run c.graph).2 }) := rfl
  unfold Ensures at h ⊢
  rw [hrun]
  rcases haction : action.run.run c.graph with ⟨e | a, g⟩
  · rw [haction] at h
    exact ⟨rfl, h⟩
  · rw [haction] at h
    exact ⟨rfl, h⟩

theorem onGraph_writes {α : Type} {action : Linking α} {added : List (List Operation)} (h : Writes added action)
    (c : Compiler σ) : Ensures (onGraph action) c (fun _ c' => c'.graph.size = c.graph.size + added.length)
      fun c' => c'.graph.size = c.graph.size + added.length := by
  have hsize : (action.run.run c.graph).2.size = c.graph.size + added.length := by
    rw [← length_code, h.code, List.length_append, length_code]
  have hgraph : Ensures action c.graph (fun _ g' => g'.size = c.graph.size + added.length)
      fun g' => g'.size = c.graph.size + added.length := by
    unfold Ensures
    rcases hrun : action.run.run c.graph with ⟨e | a, g'⟩
    · rwa [hrun] at hsize
    · rwa [hrun] at hsize
  exact (onGraph_ensures hgraph).imp (fun _ _ h => h.2) fun _ h => h.2

theorem Advances.of_grows {n : Nat} {c c' : Compiler σ} (h : c' = { c with graph := c'.graph })
    (hgrows : Grows n c.graph c'.graph) : Advances n c c' := by
  have hpending : c'.pending = c.pending := by rw [h]
  refine ⟨?_, hgrows, hpending ▸ List.Subset.refl _⟩
  rw [h]

theorem eq_of_onGraph {α : Type} {action : Linking α} {c c' : Compiler σ} {a : α}
    (h : (onGraph action).run.run c = (.ok a, c')) : c' = { c with graph := c'.graph } :=
  ((onGraph_ensures (ensures_of trivial)).of_ok h).1

theorem alike_onGraph {α : Type} {action : Linking α} {c c' : Compiler σ} {a : α}
    (h : (onGraph action).run.run c = (.ok a, c')) : c.Alike c' := by
  rw [Alike, eq_of_onGraph h]

/-! ### Operations and sequences -/

theorem emit_ensures {n : Nat} {c : Compiler σ} {op : Operation} {fragments : List Fragment}
    (hsize : n ≤ c.graph.size)
    (hn : ∀ f ∈ fragments, ∀ x, f.exit = some x → n ≤ x.index ∧ x.index < c.graph.size) :
    Ensures (emit op fragments) c
      (fun f c' => Advances n c c' ∧ c'.graph.Applied op fragments f ⟨c.graph.size⟩ ∧
        (∀ x, f.exit = some x → n ≤ x.index ∧ c'.graph.IsOpen x) ∧ c'.graph.size = c.graph.size + 1 ∧
        ∀ id, id ≠ ⟨c.graph.size⟩ → (∀ f ∈ fragments, f.exit ≠ some id) → c'.graph.block? id = c.graph.block? id)
      fun c' => Advances n c c' := by
  refine ensures_bind (ensures_get (ensures_bind (ensures_lift (fun _ _ => ?_) (.refl n c))))
  refine ((onGraph_ensures (applyOp_ensures hsize hn)).and (onGraph_writes (writes_applyOp op fragments) c)).imp
    (fun f c' h => ?_) fun c' h => .of_grows h.1.1 h.1.2
  obtain ⟨⟨hc', hgrows, happlied, hopen, hother⟩, hadded⟩ := h
  exact ⟨.of_grows hc' hgrows, happlied, hopen, hadded, hother⟩

/-- An operation that was emitted was one that the version has. -/
theorem emit_eq_ok {c c' : Compiler σ} {op : Operation} {fragments : List Fragment} {f : Fragment}
    (h : (emit op fragments).run.run c = (.ok f, c')) :
    c.options.require op = .ok () ∧ (onGraph (applyOp op fragments)).run.run c = (.ok f, c') := by
  have hemit : Ensures (emit op fragments) c (fun f c' => c.options.require op = .ok () ∧
      (onGraph (applyOp op fragments)).run.run c = (.ok f, c')) fun _ => True :=
    ensures_bind (ensures_get (ensures_bind (ensures_lift (fun _ hrequire =>
      (ensures_run _ c).imp (fun _ _ hrun => ⟨hrequire, hrun⟩) fun _ _ => trivial) trivial)))
  exact hemit.of_ok h

theorem seq_ensures {n : Nat} {c : Compiler σ} {before next : Fragment} (hn : ∀ x, before.exit = some x → n ≤ x.index) :
    Ensures (onGraph (BlockGraph.seq before next)) c
      (fun both c' => Advances n c c' ∧ both = ⟨before.entry, next.exit⟩ ∧ c'.graph.Linked before.exit next.entry ∧
        ∀ id, before.exit ≠ some id → c'.graph.block? id = c.graph.block? id)
      fun c' => Advances n c c' := by
  have hfollow : Ensures (BlockGraph.seq before next) c.graph
      (fun both g' => both = ⟨before.entry, next.exit⟩ ∧ Grows n c.graph g' ∧ g'.Linked before.exit next.entry ∧
        ∀ id, before.exit ≠ some id → g'.block? id = c.graph.block? id)
      fun g' => g' = c.graph :=
    ensures_bind ((follow_ensures hn).imp (fun _ g' h => ensures_pure ⟨rfl, h⟩) fun g' h => h)
  refine (onGraph_ensures hfollow).imp (fun both c' h => ?_) fun c' h => ?_
  · obtain ⟨hc', hboth, hgrows, hlinked, hother⟩ := h
    exact ⟨.of_grows hc' hgrows, hboth, hlinked, hother⟩
  · obtain ⟨hc', hg'⟩ := h
    exact .of_grows hc' (hg' ▸ .refl _ _)

/-! ### Conditionals -/

section Conditionals

variable {n : Nat} {c : Compiler σ}

theorem addJoin_ensures (c : Compiler σ) :
    Ensures (onGraph (σ := σ) (addBlock [])) c
      (fun join c' => Advances c.graph.size c c' ∧ join = ⟨c.graph.size⟩ ∧ c'.graph.Holds join [] false ∧
        c'.graph.IsOpen join ∧ c'.graph.size = c.graph.size + 1)
      fun c' => Advances c.graph.size c c' := by
  refine (onGraph_ensures (addBlock_ensures [] fun g' => Grows c.graph.size c.graph g')).imp
    (fun join c' h => ?_) fun c' h => .of_grows h.1 h.2
  obtain ⟨hc', rfl, hg'⟩ := h
  have hblock : c'.graph.block? ⟨c.graph.size⟩ = some ⟨[], .opened⟩ := by
    rw [hg', block?_push, if_pos rfl]
  exact ⟨.of_grows hc' (hg' ▸ grows_push _ _), rfl, ⟨_, hblock, rfl, by simp⟩, ⟨_, hblock, rfl⟩, by simp [hg', size]⟩

theorem writes_joinArm (arm : Fragment) (join : BlockId) : Writes [] (joinArm arm join) := by
  unfold joinArm
  split
  · exact writes_link _ join
  · exact writes_pure ()

theorem joinArm_ensures {arm : Fragment} {join : BlockId} (hn : ∀ y, arm.exit = some y → n ≤ y.index) :
    Ensures (onGraph (σ := σ) (joinArm arm join)) c
      (fun _ c' => Advances n c c' ∧ (∀ y, arm.exit = some y → c'.graph.Linked arm.exit join) ∧
        (∀ id, arm.exit ≠ some id → c'.graph.block? id = c.graph.block? id) ∧ c'.graph.size = c.graph.size)
      fun c' => Advances n c c' := by
  have hgraph : Ensures (joinArm arm join) c.graph
      (fun _ g' => Grows n c.graph g' ∧ (∀ y, arm.exit = some y → g'.Linked arm.exit join) ∧
        ∀ id, arm.exit ≠ some id → g'.block? id = c.graph.block? id)
      fun g' => Grows n c.graph g' := by
    unfold joinArm
    cases hexit : arm.exit with
    | none => exact ensures_pure ⟨.refl n _, fun y hy => (by cases hy), fun _ _ => rfl⟩
    | some x =>
      refine (link_ensures join (hn x hexit)).imp (fun _ g' h => ?_) fun g' h => h ▸ .refl n _
      obtain ⟨hgrows, hlinked, hother⟩ := h
      exact ⟨hgrows, fun _ _ => hlinked, fun id hid => hother id fun heq => hid (by rw [heq])⟩
  refine ((onGraph_ensures hgraph).and (onGraph_writes (writes_joinArm arm join) c)).imp (fun _ c' h => ?_)
    fun c' h => .of_grows h.1.1 h.1.2
  obtain ⟨⟨hc', hgrows, hlinked, hother⟩, hsize⟩ := h
  exact ⟨.of_grows hc' hgrows, hlinked, hother, hsize⟩

theorem branchArms_ensures {last first second : BlockId} (hn : n ≤ last.index) :
    Ensures (onGraph (σ := σ) (branch last [first, second])) c
      (fun _ c' => Advances n c c' ∧ c'.graph.Closed last (.branch first second []) ∧
        (∀ id, id ≠ last → c'.graph.block? id = c.graph.block? id) ∧ c'.graph.size = c.graph.size)
      fun c' => Advances n c c' := by
  refine ((onGraph_ensures (branch_ensures hn)).and (onGraph_writes (writes_branch last first second) c)).imp
    (fun _ c' h => ?_) fun c' h => ?_
  · obtain ⟨⟨hc', hgrows, hclosed, hother⟩, hsize⟩ := h
    exact ⟨.of_grows hc' hgrows, hclosed, hother, hsize⟩
  · obtain ⟨⟨hc', hg'⟩, -⟩ := h
    exact .of_grows hc' (hg' ▸ .refl n _)

theorem conditionEnd_eq_ok {cond : Fragment} {last : BlockId} (h : conditionEnd cond = .ok last) :
    cond.exit = some last := by
  unfold conditionEnd at h
  split at h
  · rename_i last' hexit
    cases h
    exact hexit
  · cases h

end Conditionals

/-! ### Calls -/

theorem run_definition (s : Subroutine) (c : Compiler σ) :
    (definition s).run.run c = match c.definition? s with
      | some d => (.ok d, c)
      | none => (.error (.notDefinedHere s.name), c) := by
  rw [definition, run_bind]
  dsimp only [run_get]
  cases c.definition? s <;> rfl

theorem definition_ensures {c : Compiler σ} {s : Subroutine} :
    Ensures (definition s) c (fun d c' => c' = c ∧ c.definition? s = some d) fun c' => c' = c := by
  refine ensures_bind (ensures_get ?_)
  split
  · rename_i d hd
    exact ensures_pure ⟨rfl, hd⟩
  · exact ensures_throw rfl

theorem enqueue_ensures (n : Nat) {c : Compiler σ} {s : Subroutine} :
    Ensures (enqueue s) c (fun _ c' => Advances n c c' ∧ c'.graph = c.graph) fun c' => Advances n c c' := by
  refine ensures_bind (definition_ensures.imp (fun d c₁ h => ?_) fun c' h => h ▸ .refl n c)
  obtain ⟨rfl, -⟩ := h
  split
  · refine ensures_modify ?_
    split
    · exact ⟨.refl n _, rfl⟩
    · exact ⟨⟨rfl, .refl n _, List.subset_append_left _ _⟩, rfl⟩
  · exact ensures_pure ⟨.refl n _, rfl⟩
  · exact ensures_pure ⟨.refl n _, rfl⟩

end ScratchMachine.Compiler
