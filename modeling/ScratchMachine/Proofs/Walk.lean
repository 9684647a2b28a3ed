import ScratchMachine.BlockGraph
import ScratchMachine.Proofs.Behaviour

/-!
# Walking a block graph

A block graph read as a program: control runs through the operations of a block, and then goes where the exit of the
block says.

* `BlockGraph.walks_eq`: a walk runs through one block and goes on as a walk.  `BlockGraph.walks_le`: it is nothing
  else.
-/

namespace ScratchMachine

open Effect Fallible

/-- The block that control goes to by an exit, if there is one.  A branch pops an integer.  Of two targets it takes
the first if the integer is not zero; of more it takes the one that the integer counts, or else the last. -/
def Exit.choose : Exit → Effect (Option BlockId)
  | opened | terminal => return none
  | next target => return some target
  | branch first second [] => do
    let n ← popInteger
    return some (if n ≠ 0 then first else second)
  | branch first second (other :: others) => do
    let i ← popInteger
    return some ((first :: second :: other :: others).getD i.toNat
      ((other :: others).getLast (List.cons_ne_nil other others)))

theorem Exit.choose_answers (exit : Exit) :
    Answers exit.choose fun answer => ∀ target, answer = some target → target ∈ exit.targets := by
  cases exit with
  | opened => exact answers_pure (by simp)
  | terminal => exact answers_pure (by simp)
  | next target => exact answers_pure (by simp [targets])
  | branch first second others =>
    cases others with
    | nil =>
      refine answers_bind fun n => answers_pure ?_
      split <;> simp [targets]
    | cons other others =>
      refine answers_bind fun i => answers_pure ?_
      intro target htarget
      obtain rfl := Option.some.inj htarget
      rw [List.getD_eq_getElem?_getD]
      cases hi : (first :: second :: other :: others)[i.toNat]? with
      | none =>
        have hlast : (other :: others).getLast (by simp) ∈ other :: others := List.getLast_mem _
        exact List.mem_cons_of_mem _ (List.mem_cons_of_mem _ hlast)
      | some target => exact List.mem_of_getElem? hi

open Behaviour

namespace BlockGraph

variable {calls : Calls} {g : BlockGraph}

/-- How control can walk through a graph from the beginning of a block. -/
inductive Walks (calls : Calls) (g : BlockGraph) : BlockId → Memory → Flow → Memory → Prop
  /-- It leaves inside the block. -/
  | leaves {id b m f m'} : g.block? id = some b → Operation.behaviourAll calls b.ops m f m' → f ≠ .done →
      Walks calls g id m f m'
  /-- The exit of the block leads nowhere. -/
  | ends {id b m mid m'} : g.block? id = some b → Operation.behaviourAll calls b.ops m .done mid →
      b.exit.choose.run.run mid = (.ok none, m') → Walks calls g id m .done m'
  /-- The exit of the block leads to another block. -/
  | goes {id b m mid target mid' f m'} : g.block? id = some b → Operation.behaviourAll calls b.ops m .done mid →
      b.exit.choose.run.run mid = (.ok (some target), mid') → Walks calls g target mid' f m' →
      Walks calls g id m f m'
  /-- The exit of the block finds no integer to choose by. -/
  | sticks {id b m mid fault m'} : g.block? id = some b → Operation.behaviourAll calls b.ops m .done mid →
      b.exit.choose.run.run mid = (.error fault, m') → Walks calls g id m (.fault ⟨fault, []⟩) m'

/-- What control does after the exit of a block has chosen, given what it does from the other blocks. -/
def onward (go : BlockId → Behaviour) : Option BlockId → Behaviour
  | none => skip
  | some target => go target

/-- What control does at the exit of a block, given what it does from the other blocks. -/
def leaving (go : BlockId → Behaviour) (exit : Exit) : Behaviour := perform exit.choose (onward go)

theorem leaving_congr {go go' : BlockId → Behaviour} {exit : Exit} (h : ∀ target ∈ exit.targets, go target = go' target) :
    leaving go exit = leaving go' exit := by
  refine perform_congr fun m answer m' hanswer => ?_
  cases answer with
  | none => rfl
  | some target => exact h target (exit.choose_answers m _ m' hanswer target rfl)

/-- A walk runs through the operations of a block and then goes on by its exit. -/
theorem walks_eq {id : BlockId} {b : Block} (hb : g.block? id = some b) :
    g.Walks calls id = (Operation.behaviourAll calls b.ops).andThen (leaving (g.Walks calls) b.exit) := by
  funext m f m'
  refine propext ⟨fun h => ?_, ?_⟩
  · cases h with
    | leaves hb' hops hf =>
      obtain rfl := Option.some.inj (hb'.symm.trans hb)
      exact .inr ⟨hf, hops⟩
    | ends hb' hops hexit =>
      obtain rfl := Option.some.inj (hb'.symm.trans hb)
      refine .inl ⟨_, hops, ?_⟩
      rw [leaving, perform_ok hexit]
      exact ⟨rfl, rfl⟩
    | goes hb' hops hexit hgo =>
      obtain rfl := Option.some.inj (hb'.symm.trans hb)
      refine .inl ⟨_, hops, ?_⟩
      rw [leaving, perform_ok hexit]
      exact hgo
    | sticks hb' hops hexit =>
      obtain rfl := Option.some.inj (hb'.symm.trans hb)
      refine .inl ⟨_, hops, ?_⟩
      rw [leaving, perform_error hexit]
      exact ⟨rfl, rfl⟩
  · rintro (⟨mid, hops, hexit⟩ | ⟨hf, hops⟩)
    · rw [leaving] at hexit
      rcases hchoose : b.exit.choose.run.run mid with ⟨fault | answer, mid'⟩
      · rw [perform_error hchoose] at hexit
        obtain ⟨rfl, rfl⟩ := hexit
        exact .sticks hb hops hchoose
      · rw [perform_ok hchoose] at hexit
        cases answer with
        | none =>
          obtain ⟨rfl, rfl⟩ := hexit
          exact .ends hb hops hchoose
        | some target => exact .goes hb hops hchoose hexit
    · exact .leaves hb hops hf

/-- Walks do only what has to be possible because it is from each block to the next, within a set of blocks that
control does not get out of. -/
theorem walks_le (go : BlockId → Behaviour) (within : BlockId → Prop)
    (hwithin : ∀ id, within id → ∀ target ∈ g.successors id, within target)
    (h : ∀ id b, within id → g.block? id = some b →
      (Operation.behaviourAll calls b.ops).andThen (leaving go b.exit) ≤ go id)
    {id : BlockId} (hid : within id) : g.Walks calls id ≤ go id := by
  intro m f m' hwalk
  induction hwalk with
  | @leaves id b m f m' hb hops hf => exact h id b hid hb _ _ _ (.inr ⟨hf, hops⟩)
  | @ends id b m mid m' hb hops hexit =>
    refine h id b hid hb _ _ _ (.inl ⟨mid, hops, ?_⟩)
    rw [leaving, perform_ok hexit]
    exact ⟨rfl, rfl⟩
  | @goes id b m mid target mid' f m' hb hops hexit _ ih =>
    refine h id b hid hb _ _ _ (.inl ⟨mid, hops, ?_⟩)
    rw [leaving, perform_ok hexit]
    refine ih (hwithin id hid target ?_)
    rw [successors, hb]
    exact b.exit.choose_answers _ _ _ hexit target rfl
  | @sticks id b m mid fault m' hb hops hexit =>
    refine h id b hid hb _ _ _ (.inl ⟨mid, hops, ?_⟩)
    rw [leaving, perform_error hexit]
    exact ⟨rfl, rfl⟩

/-! ### The exits one by one -/

@[simp] theorem leaving_opened (go : BlockId → Behaviour) : leaving go .opened = skip := rfl

@[simp] theorem leaving_next (go : BlockId → Behaviour) (target : BlockId) : leaving go (.next target) = go target :=
  rfl

theorem leaving_branch_two (go : BlockId → Behaviour) (first second : BlockId) :
    leaving go (.branch first second []) = Behaviour.choose (go first) (go second) := by
  rw [leaving, Exit.choose, perform_bind, Behaviour.choose]
  congr 1
  funext n
  rw [perform_pure, onward]
  split <;> rfl

theorem leaving_branch_more (go : BlockId → Behaviour) (first second other : BlockId) (others : List BlockId) :
    leaving go (.branch first second (other :: others)) = perform popInteger fun i =>
      go ((first :: second :: other :: others).getD i.toNat ((other :: others).getLast (by simp))) := by
  rw [leaving, Exit.choose, perform_bind]
  rfl

end BlockGraph

end ScratchMachine
