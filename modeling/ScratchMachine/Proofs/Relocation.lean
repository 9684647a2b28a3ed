import ScratchMachine.Proofs.Layout
import ScratchMachine.Proofs.Linking

/-!
# Blocks in another place

The numbers of blocks tell blocks apart, and nothing else.  When the blocks of one graph stand in another, all of them by
the same number of places further on, then control goes through them in the same way, the search lists them in the same
order, and their linear code is the same.

* `BlockGraph.Relocates`: the blocks of a graph stand in another one.
* `BlockGraph.Relocates.order_eq`: the search meets them in the same order.
* `BlockGraph.Relocates.linearize_eq`: their linear code is the same.
-/

namespace ScratchMachine

/-! ### Numbers, exits and fragments -/

variable {n : Nat}

/-- The block that stands so many places further on. -/
def BlockId.shift (n : Nat) (id : BlockId) : BlockId := ⟨n + id.index⟩

theorem BlockId.shift_inj {id id' : BlockId} : id.shift n = id'.shift n ↔ id = id' := by
  obtain ⟨i⟩ := id
  obtain ⟨j⟩ := id'
  simp only [shift, BlockId.mk.injEq]
  omega

namespace Exit

/-- The exit when all blocks stand so many places further on. -/
def shift (n : Nat) : Exit → Exit
  | opened => opened
  | next target => next (target.shift n)
  | branch first second others => branch (first.shift n) (second.shift n) (others.map (BlockId.shift n))
  | terminal => terminal

theorem targets_shift (exit : Exit) : (exit.shift n).targets = exit.targets.map (BlockId.shift n) := by
  cases exit <;> rfl

@[simp] theorem shift_eq_opened {exit : Exit} : exit.shift n = opened ↔ exit = opened := by
  cases exit <;> simp [shift]

end Exit

/-- The block when all blocks stand so many places further on. -/
def Block.shift (n : Nat) (b : Block) : Block := ⟨b.ops, b.exit.shift n⟩

/-- The fragment when all blocks stand so many places further on. -/
def Fragment.shift (n : Nat) (f : Fragment) : Fragment := ⟨f.entry.shift n, f.exit.map (BlockId.shift n)⟩

namespace BlockGraph

/-- The blocks of a graph stand in another one, so many places further on. -/
def Relocates (n : Nat) (g g' : BlockGraph) : Prop :=
  ∀ id b, g.block? id = some b → g'.block? (id.shift n) = some (b.shift n)

/-- Every block that a block leads to is there. -/
def Whole (g : BlockGraph) : Prop := ∀ id b, g.block? id = some b → ∀ t ∈ b.exit.targets, ∃ b', g.block? t = some b'

variable {g g' g'' : BlockGraph} {entry : BlockId}

theorem Whole.reaches (hg : g.Whole) {id id' : BlockId} (hid : ∃ b, g.block? id = some b) (h : g.Reaches id id') :
    ∃ b, g.block? id' = some b := by
  induction h with
  | refl => exact hid
  | tail _ hedge ih =>
    obtain ⟨b, hb⟩ := ih
    rw [successors, hb] at hedge
    exact hg _ b hb _ hedge

namespace Relocates

/-- What is added to the other graph does not matter. -/
theorem grows (h : Relocates n g g') (hgrows : Grows g'.size g' g'') : Relocates n g g'' := by
  intro id b hb
  have hb' := h id b hb
  rw [hgrows.keeps _ (index_lt_size hb'), hb']

theorem successors_eq (h : Relocates n g g') {id : BlockId} (hid : ∃ b, g.block? id = some b) :
    g'.successors (id.shift n) = (g.successors id).map (BlockId.shift n) := by
  obtain ⟨b, hb⟩ := hid
  rw [successors, successors, h id b hb, hb]
  exact b.exit.targets_shift

/-! ### The order of the search -/

/-- A frame of the search when all blocks stand so many places further on. -/
def shiftFrame (n : Nat) (frame : BlockId × List BlockId) : BlockId × List BlockId :=
  (frame.1.shift n, frame.2.map (BlockId.shift n))

theorem contains_shift (seen : List BlockId) (id : BlockId) :
    (seen.map (BlockId.shift n)).contains (id.shift n) = seen.contains id := by
  rw [Bool.eq_iff_iff, List.contains_iff_mem, List.contains_iff_mem, List.mem_map]
  constructor
  · rintro ⟨id', hmem, heq⟩
    exact BlockId.shift_inj.1 heq ▸ hmem
  · exact fun hmem => ⟨id, hmem, rfl⟩

/-- The search takes the same course, as long as all blocks that are still to be explored are there. -/
theorem visit_eq (h : Relocates n g g') (hg : g.Whole) {frames : List (BlockId × List BlockId)}
    (hframes : ∀ frame ∈ frames, ∀ t ∈ frame.2, ∃ b, g.block? t = some b) (seen done : List BlockId) :
    g'.visit (frames.map (shiftFrame n)) (seen.map (BlockId.shift n)) (done.map (BlockId.shift n)) =
      (g.visit frames seen done).map (BlockId.shift n) := by
  fun_induction BlockGraph.visit g frames seen done with
  | case1 seen done =>
    rw [List.map_nil, visit]
  | case2 seen done id rest ih =>
    rw [List.map_cons, shiftFrame, List.map_nil, visit]
    exact ih fun frame hframe => hframes frame (List.mem_cons_of_mem _ hframe)
  | case3 seen done id target targets rest hseen ih =>
    obtain ⟨hfirst, hrest⟩ := List.forall_mem_cons.1 hframes
    rw [List.map_cons, shiftFrame, List.map_cons, visit, contains_shift, if_pos hseen]
    exact ih (List.forall_mem_cons.2 ⟨fun t ht => hfirst t (List.mem_cons_of_mem _ ht), hrest⟩)
  | case4 seen done id target targets rest hseen ih =>
    obtain ⟨hfirst, hrest⟩ := List.forall_mem_cons.1 hframes
    have htarget := hfirst target (List.mem_cons_self ..)
    rw [List.map_cons, shiftFrame, List.map_cons, visit, contains_shift, if_neg hseen, h.successors_eq htarget,
      ← List.map_reverse]
    apply ih
    have hnext : ∀ t ∈ (g.successors target).reverse, ∃ b, g.block? t = some b := fun t ht =>
      hg.reaches htarget (.single (List.mem_reverse.1 ht))
    have hothers : ∀ t ∈ targets, ∃ b, g.block? t = some b := fun t ht => hfirst t (List.mem_cons_of_mem _ ht)
    exact List.forall_mem_cons.2 ⟨hnext, List.forall_mem_cons.2 ⟨hothers, hrest⟩⟩

theorem order_eq (h : Relocates n g g') (hg : g.Whole) (hentry : ∃ b, g.block? entry = some b) :
    g'.order (entry.shift n) = (g.order entry).map (BlockId.shift n) := by
  have hframes : ∀ frame ∈ [(entry, (g.successors entry).reverse)], ∀ t ∈ frame.2, ∃ b, g.block? t = some b := by
    intro frame hframe t ht
    obtain rfl := List.mem_singleton.1 hframe
    exact hg.reaches hentry (.single (List.mem_reverse.1 ht))
  unfold order
  rw [h.successors_eq hentry, ← List.map_reverse]
  exact h.visit_eq hg hframes [entry] []

/-- A block with its number when all blocks stand so many places further on. -/
def shiftEntry (n : Nat) (x : BlockId × Block) : BlockId × Block := (x.1.shift n, x.2.shift n)

theorem trace_eq_ok (h : Relocates n g g') (hg : g.Whole) (hentry : ∃ b, g.block? entry = some b) :
    ∃ l, g.trace entry = .ok l ∧ g'.trace (entry.shift n) = .ok (l.map (shiftEntry n)) := by
  have hthere : ∀ id ∈ g.order entry, ∃ b, g.block? id = some b := fun id hid => hg.reaches hentry (mem_order_iff.1 hid)
  unfold trace
  rw [h.order_eq hg hentry]
  generalize g.order entry = ids at hthere ⊢
  induction ids with
  | nil => exact ⟨[], rfl, rfl⟩
  | cons id ids ih =>
    obtain ⟨⟨b, hb⟩, hrest⟩ := List.forall_mem_cons.1 hthere
    obtain ⟨l, hl, hl'⟩ := ih hrest
    have hblock : g.block id = .ok b := block_eq_ok.2 hb
    have hblock' : g'.block (id.shift n) = .ok (b.shift n) := block_eq_ok.2 (h id b hb)
    refine ⟨(id, b) :: l, ?_, ?_⟩
    · rw [List.mapM_cons, hblock, hl]
      rfl
    · rw [List.map_cons, List.mapM_cons, hblock', hl']
      rfl

end Relocates

/-! ### The layout -/

namespace Linear

/-- The target when all blocks stand so many places further on. -/
def Target.shift (n : Nat) : Target → Target
  | block id => block (id.shift n)
  | finish => finish

/-- The item when all blocks stand so many places further on. -/
def Item.shift (n : Nat) : Item → Item
  | op o => op o
  | jump t => jump (t.shift n)
  | jumpIfFalse t => jumpIfFalse (t.shift n)
  | switch ts => switch (ts.map (Target.shift n))

/-- A block with its code when all blocks stand so many places further on. -/
def shiftPlaced (n : Nat) (x : Placed) : Placed := (x.1.shift n, x.2.map (Item.shift n))

theorem jumpUnless_shift (following : Option BlockId) (target : BlockId) :
    jumpUnless (following.map (BlockId.shift n)) (target.shift n) =
      (jumpUnless following target).map (Item.shift n) := by
  have hiff : following.map (BlockId.shift n) = some (target.shift n) ↔ following = some target := by
    cases following with
    | none => simp
    | some id => simp [BlockId.shift_inj]
  unfold jumpUnless
  by_cases h : following = some target
  · rw [if_pos h, if_pos (hiff.2 h)]
    rfl
  · rw [if_neg h, if_neg fun h' => h (hiff.1 h')]
    rfl

theorem exitCode_shift (following : Option BlockId) (exit : Exit) :
    exitCode (following.map (BlockId.shift n)) (exit.shift n) = (exitCode following exit).map (Item.shift n) := by
  cases exit with
  | opened =>
    cases following with
    | none => rfl
    | some id => rfl
  | next target => exact jumpUnless_shift following target
  | terminal => rfl
  | branch first second others =>
    cases others with
    | nil =>
      simp only [Exit.shift, List.map_nil, exitCode, List.map_cons, jumpUnless_shift]
      rfl
    | cons other others =>
      simp only [Exit.shift, List.map_cons, exitCode]
      have hlast : (other.shift n :: others.map (BlockId.shift n)).getLast (by simp) =
          ((other :: others).getLast (by simp)).shift n := by
        rw [← List.getLast_map (f := BlockId.shift n) (by simp)]
        rfl
      have hinit : (other.shift n :: others.map (BlockId.shift n)).dropLast =
          (other :: others).dropLast.map (BlockId.shift n) := by
        rw [List.map_dropLast]
        rfl
      rw [hlast, hinit, jumpUnless_shift]
      simp [Item.shift, Target.shift, Function.comp_def]

theorem place_shift (l : List (BlockId × Block)) :
    place (l.map (Relocates.shiftEntry n)) = (place l).map (shiftPlaced n) := by
  induction l with
  | nil => rfl
  | cons x l ih =>
    obtain ⟨id, b⟩ := x
    have hhead : (l.map (Relocates.shiftEntry n)).head?.map (·.1) = (l.head?.map (·.1)).map (BlockId.shift n) := by
      cases l <;> rfl
    have hops : (b.ops.map Item.op).map (Item.shift n) = b.ops.map Item.op := by
      rw [List.map_map]
      rfl
    rw [List.map_cons, Relocates.shiftEntry, place, place, List.map_cons, ih, hhead]
    rw [shiftPlaced, List.map_append, hops, ← exitCode_shift]
    rfl

theorem items_shift (placed : List Placed) :
    (placed.map (shiftPlaced n)).flatMap (·.2) = (placed.flatMap (·.2)).map (Item.shift n) := by
  rw [List.flatMap_map, List.map_flatMap]
  rfl

theorem startOf_shift (id : BlockId) (placed : List Placed) :
    startOf (id.shift n) (placed.map (shiftPlaced n)) = startOf id placed := by
  induction placed with
  | nil => rfl
  | cons x placed ih =>
    obtain ⟨b, code⟩ := x
    rw [List.map_cons, shiftPlaced, startOf, startOf, ih, List.length_map]
    simp only [BlockId.shift_inj]

theorem position_shift (placed : List Placed) (t : Target) :
    (t.shift n).position (placed.map (shiftPlaced n)) = t.position placed := by
  cases t with
  | block id => exact startOf_shift id placed
  | finish => rw [Target.shift, Target.position, items_shift, List.length_map, Target.position]

theorem resolve_shift (placed : List Placed) (position : Nat) (item : Item) :
    resolve (placed.map (shiftPlaced n)) position (item.shift n) = resolve placed position item := by
  cases item with
  | op o => rfl
  | jump t => simp only [Item.shift, resolve, position_shift]
  | jumpIfFalse t => simp only [Item.shift, resolve, position_shift]
  | switch ts =>
    have hall : (ts.map (Target.shift n)).mapM (fun t => offset position (t.position (placed.map (shiftPlaced n)))) =
        ts.mapM fun t => offset position (t.position placed) := by
      induction ts with
      | nil => rfl
      | cons t ts ih => rw [List.map_cons, List.mapM_cons, List.mapM_cons, position_shift, ih]
    rw [Item.shift, resolve, resolve, hall]

theorem resolveFrom_shift (placed : List Placed) (start : Nat) (items : List Item) :
    resolveFrom (placed.map (shiftPlaced n)) start (items.map (Item.shift n)) = resolveFrom placed start items := by
  induction items generalizing start with
  | nil => rfl
  | cons item items ih => rw [List.map_cons, resolveFrom, resolveFrom, resolve_shift, ih]

end Linear

/-- The linear code of blocks does not depend on where they stand. -/
theorem Relocates.linearize_eq (h : Relocates n g g') (hg : g.Whole) (hentry : ∃ b, g.block? entry = some b) :
    g'.linearize (entry.shift n) = g.linearize entry := by
  obtain ⟨l, htrace, htrace'⟩ := h.trace_eq_ok hg hentry
  unfold linearize
  rw [htrace, htrace']
  show Linear.resolveFrom (Linear.place (l.map (shiftEntry n))) 0 ((Linear.place (l.map (shiftEntry n))).flatMap (·.2)) =
    Linear.resolveFrom (Linear.place l) 0 ((Linear.place l).flatMap (·.2))
  rw [Linear.place_shift, Linear.items_shift, Linear.resolveFrom_shift]

end BlockGraph

end ScratchMachine
