import ScratchMachine.Proofs.Linking

/-!
# What linking adds to a graph

Whether it succeeds or is refused, what is done to a graph adds the blocks that it makes after all others and leaves the
operations of the others alone.  No block is made to branch to more than two others.

* `BlockGraph.code`: the operations of all blocks.
* `BlockGraph.Writes`: what an action adds to them.
-/

namespace ScratchMachine.BlockGraph

variable {g : BlockGraph} {α β : Type} {ops : List Operation} {added : List (List Operation)}

/-- The operations of the blocks, in the order of their numbers. -/
def code (g : BlockGraph) : List (List Operation) := g.blocks.toList.map (·.ops)

/-- No block branches to more than two others. -/
def Narrow (g : BlockGraph) : Prop := ∀ id b, g.block? id = some b → b.exit.targets.length ≤ 2

theorem getElem?_code (g : BlockGraph) (i : Nat) : g.code[i]? = (g.block? ⟨i⟩).map (·.ops) := by
  rw [code, List.getElem?_map, Array.getElem?_toList, block?]

theorem length_code (g : BlockGraph) : g.code.length = g.size := by
  rw [code, List.length_map, Array.length_toList, size]

theorem mem_code_iff : ops ∈ g.code ↔ ∃ id b, g.block? id = some b ∧ b.ops = ops := by
  rw [List.mem_iff_getElem?]
  constructor
  · rintro ⟨i, hi⟩
    rw [getElem?_code] at hi
    obtain ⟨b, hb, hops⟩ := Option.map_eq_some_iff.1 hi
    exact ⟨⟨i⟩, b, hb, hops⟩
  · rintro ⟨id, b, hb, rfl⟩
    exact ⟨id.index, by rw [getElem?_code, hb, Option.map_some]⟩

theorem code_push (g : BlockGraph) (b : Block) : (BlockGraph.mk (g.blocks.push b)).code = g.code ++ [b.ops] := by
  simp [code]

theorem code_withExit (g : BlockGraph) (id : BlockId) (exit : Exit) : (g.withExit id exit).code = g.code := by
  refine List.ext_getElem? fun i => ?_
  rw [getElem?_code, getElem?_code]
  by_cases h : (⟨i⟩ : BlockId) = id
  · subst h
    rcases hb : g.block? ⟨i⟩ with _ | b
    · have hnone : (g.withExit ⟨i⟩ exit).block? ⟨i⟩ = none := by
        rw [block?] at hb
        rw [block?, withExit, Array.getElem?_modify, if_pos rfl, hb, Option.map_none]
      rw [hnone]
    · rw [block?_withExit exit hb]
      rfl
  · rw [block?_withExit_of_ne exit h]

theorem narrow_push (h : g.Narrow) (ops : List Operation) : (BlockGraph.mk (g.blocks.push ⟨ops, .opened⟩)).Narrow := by
  intro id b hb
  rw [block?_push] at hb
  split at hb
  · cases hb
    exact Nat.zero_le _
  · exact h id b hb

theorem narrow_withExit (h : g.Narrow) (id : BlockId) {exit : Exit} (hexit : exit.targets.length ≤ 2) :
    (g.withExit id exit).Narrow := by
  intro id' b hb
  by_cases heq : id' = id
  · subst heq
    obtain ⟨b', hb', rfl⟩ : ∃ b', g.block? id' = some b' ∧ b = { b' with exit } := by
      rw [block?, withExit, Array.getElem?_modify, if_pos rfl] at hb
      obtain ⟨b', hb', rfl⟩ := Option.map_eq_some_iff.1 hb
      exact ⟨b', hb', rfl⟩
    exact hexit
  · rw [block?_withExit_of_ne exit heq] at hb
    exact h id' b hb

/-! ### Actions -/

/-- In any case, an action adds blocks of these operations after all others, and no wide branch. -/
structure Writes (added : List (List Operation)) (action : Linking α) : Prop where
  code : ∀ g, (action.run.run g).2.code = g.code ++ added
  narrow : ∀ g, g.Narrow → (action.run.run g).2.Narrow

theorem writes_pure (a : α) : Writes [] (pure a : Linking α) := ⟨fun g => (List.append_nil g.code).symm, fun _ h => h⟩

theorem writes_throw (e : CompileError) : Writes [] (throw e : Linking α) :=
  ⟨fun g => (List.append_nil g.code).symm, fun _ h => h⟩

theorem writes_lift (x : Except CompileError α) : Writes [] (liftM x : Linking α) := by
  cases x with
  | error e => exact writes_throw e
  | ok a => exact writes_pure a

theorem writes_get : Writes [] (get : Linking BlockGraph) :=
  ⟨fun g => (List.append_nil g.code).symm, fun _ h => h⟩

/-- What comes after the first part adds nothing. -/
theorem Writes.bind {x : Linking α} {k : α → Linking β} (hx : Writes added x) (hk : ∀ a, Writes [] (k a)) :
    Writes added (x >>= k) := by
  refine ⟨fun g => ?_, fun g hg => ?_⟩
  · have hcode := hx.code g
    rw [Fallible.run_bind]
    rcases hrun : x.run.run g with ⟨e | a, g'⟩
    · rwa [hrun] at hcode
    · rw [hrun] at hcode
      dsimp only at hcode ⊢
      rw [(hk a).code g', List.append_nil, hcode]
  · have hnarrow := hx.narrow g hg
    rw [Fallible.run_bind]
    rcases hrun : x.run.run g with ⟨e | a, g'⟩
    · rwa [hrun] at hnarrow
    · rw [hrun] at hnarrow
      exact (hk a).narrow g' hnarrow

theorem writes_setExit (id : BlockId) {exit : Exit} (hexit : exit.targets.length ≤ 2) : Writes [] (setExit id exit) :=
  ⟨fun g => (code_withExit g id exit).trans (List.append_nil _).symm, fun _ h => narrow_withExit h id hexit⟩

theorem writes_addBlock (ops : List Operation) : Writes [ops] (addBlock ops) :=
  ⟨fun g => code_push g ⟨ops, .opened⟩, fun _ h => narrow_push h ops⟩

theorem writes_close (id : BlockId) {exit : Exit} (hexit : exit.targets.length ≤ 2) : Writes [] (close id exit) := by
  refine writes_get.bind fun g => (writes_lift (g.block id)).bind fun b => ?_
  split
  · exact writes_setExit id hexit
  · exact (writes_throw _).bind fun _ => writes_setExit id hexit

theorem writes_link (source target : BlockId) : Writes [] (link source target) := writes_close source (Nat.le_succ 1)

theorem writes_branch (source first second : BlockId) : Writes [] (branch source [first, second]) :=
  writes_close source (Nat.le_refl 2)

theorem writes_follow (context : String) (last : Option BlockId) (target : BlockId) :
    Writes [] (follow context last target) := by
  cases last with
  | none => exact writes_throw _
  | some source => exact writes_link source target

theorem writes_chain (last : Option BlockId) (fragments : List Fragment) : Writes [] (chain last fragments) := by
  induction fragments generalizing last with
  | nil => exact writes_pure last
  | cons next rest ih => exact (writes_follow _ _ _).bind fun _ => ih next.exit

theorem writes_fragment (ops : List Operation) : Writes [ops] (fragment ops) :=
  (writes_addBlock ops).bind fun _ => writes_pure _

theorem writes_seq (first second : Fragment) : Writes [] (seq first second) :=
  (writes_follow _ _ _).bind fun _ => writes_pure _

/-- The block of the operation is the only new one. -/
theorem writes_applyOp (op : Operation) (fragments : List Fragment) : Writes [[op]] (applyOp op fragments) := by
  refine (writes_addBlock [op]).bind fun own => ?_
  have hfinish : ∀ entry : BlockId, Writes [] (if op.isTerminal then do
      setExit own .terminal
      return ⟨entry, none⟩
    else return ⟨entry, some own⟩ : Linking Fragment) := by
    intro entry
    split
    · have hterminal : Exit.terminal.targets.length ≤ 2 := Nat.zero_le 2
      exact (writes_setExit own hterminal).bind fun _ => writes_pure _
    · exact writes_pure _
  cases fragments with
  | nil => exact (writes_pure own).bind hfinish
  | cons first rest =>
    exact (writes_chain first.exit rest).bind fun last => (writes_follow _ last own).bind fun _ =>
      (writes_pure first.entry).bind hfinish

end ScratchMachine.BlockGraph
