import ScratchMachine.BlockGraph

/-!
# The blocks reachable from a block

A depth-first search lists the blocks that control can reach, in reverse order of their completion.  It explores the
targets of a block last to first, so the first target of a branch comes right after the branch, and a block where
arms meet comes after all of them.
-/

namespace ScratchMachine.BlockGraph

/-! ### The measure of the search -/

/-- The number of blocks that are not in a list. -/
def unseen (g : BlockGraph) (seen : List BlockId) : Nat :=
  (List.range g.size).countP fun i => !seen.contains ⟨i⟩

/-- The work that the frames of a search still hold. -/
def work : List (BlockId × List BlockId) → Nat
  | [] => 0
  | frame :: rest => 2 * frame.2.length + 1 + work rest

private theorem countP_lt_of_mem {α : Type} {p q : α → Bool} {l : List α} (hpq : ∀ a ∈ l, p a → q a) {a : α}
    (ha : a ∈ l) (hp : p a = false) (hq : q a = true) : l.countP p < l.countP q := by
  induction l with
  | nil => simp at ha
  | cons b rest ih =>
    have hrest := List.countP_mono_left fun x hx => hpq x (List.mem_cons_of_mem b hx)
    rcases List.mem_cons.1 ha with rfl | ha
    · simp only [List.countP_cons, hp, hq]
      simp
      omega
    · have := ih (fun x hx => hpq x (List.mem_cons_of_mem b hx)) ha
      have hb := hpq b (List.mem_cons_self ..)
      simp only [List.countP_cons]
      split <;> split <;> first | omega | simp_all

theorem unseen_mono (g : BlockGraph) {seen seen' : List BlockId} (h : seen ⊆ seen') :
    g.unseen seen' ≤ g.unseen seen :=
  List.countP_mono_left fun i _ hi => by
    simp only [Bool.not_eq_true', List.contains_eq_mem, decide_eq_false_iff_not] at hi ⊢
    exact fun hmem => hi (h hmem)

theorem unseen_cons_lt {g : BlockGraph} {seen : List BlockId} {id : BlockId} (h : id.index < g.size)
    (hs : seen.contains id = false) : g.unseen (id :: seen) < g.unseen seen :=
  countP_lt_of_mem (a := id.index) (fun i _ h => by simp_all) (List.mem_range.2 h) (by simp) (by simpa using hs)

theorem successors_eq_nil {g : BlockGraph} {id : BlockId} (h : ¬ id.index < g.size) :
    g.successors id = [] := by
  have : g.blocks[id.index]? = none := Array.getElem?_eq_none (by simpa [size] using h)
  simp [successors, block?, this]

/-! ### The search -/

/-- Continues a search.  A frame is a block on the path of the search and the targets of it that are still to be
explored; `seen` are the blocks met so far, and `done` those completed, the last one first. -/
def visit (g : BlockGraph) (frames : List (BlockId × List BlockId)) (seen done : List BlockId) : List BlockId :=
  match frames with
  | [] => done
  | (id, []) :: rest => g.visit rest seen (id :: done)
  | (id, target :: targets) :: rest =>
    if seen.contains target then g.visit ((id, targets) :: rest) seen done
    else g.visit ((target, (g.successors target).reverse) :: (id, targets) :: rest) (target :: seen) done
termination_by (g.unseen seen, work frames)
decreasing_by
  · exact Prod.Lex.right _ (by simp [work])
  · exact Prod.Lex.right _ (by simp [work])
  · rename_i hs
    by_cases h : target.index < g.size
    · exact Prod.Lex.left _ _ (unseen_cons_lt h (by simpa using hs))
    · rw [successors_eq_nil h]
      exact Prod.Lex.right' _ (g.unseen_mono (List.subset_cons_self target seen)) (by simp [work]; omega)

/-- The numbers reachable from `entry`, each once, in reverse order of completion. -/
def order (g : BlockGraph) (entry : BlockId) : List BlockId :=
  g.visit [(entry, (g.successors entry).reverse)] [entry] []

/-- The blocks reachable from `entry` with their numbers, all of which have to be in the graph. -/
def trace (g : BlockGraph) (entry : BlockId) : Except CompileError (List (BlockId × Block)) :=
  (g.order entry).mapM fun id => do return (id, ← g.block id)

/-- The numbers of the blocks reachable from `entry`. -/
def reachable (g : BlockGraph) (entry : BlockId) : Except CompileError (List BlockId) := do
  return (← g.trace entry).map (·.1)

/-- The operations of the blocks reachable from `entry`, without the control between them. -/
def flatten (g : BlockGraph) (entry : BlockId) : Except CompileError (List Operation) := do
  return (← g.trace entry).flatMap (·.2.ops)

end ScratchMachine.BlockGraph
