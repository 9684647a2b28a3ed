import Mathlib
import ScratchMachine.BlockGraph.Linear
import ScratchMachine.Proofs.MachineRun
import ScratchMachine.Proofs.Search
import ScratchMachine.Proofs.Walk

/-!
# What the layout preserves

The linear code of a graph does from its first operation what a walk does from the entry.  Items whose jumps still
name blocks get a meaning, with what control does at their targets as a parameter.  Both walks and runs can be put for
the parameter, and with each of them the items of a block mean what the block says.

* `Linear.meaning_place`: what placed blocks mean.
* `Linear.move_resolved`: a move at a position is what the item means that was placed there.
* `linearize_preserves`: the code of a graph does what a walk of the graph does.
-/

namespace ScratchMachine.BlockGraph

open Behaviour Effect

namespace Linear

/-! ### The meaning of items -/

/-- What control does at an item, given what it does at the targets and after the item. -/
def Item.meaning (calls : Calls) (go : Target → Behaviour) (next : Behaviour) : Item → Behaviour
  | .op o => (o.behaviour calls).andThen next
  | .jump t => go t
  | .jumpIfFalse t => choose next (go t)
  | .switch ts => perform popInteger fun i => (ts.map go).getD i.toNat next

/-- What control does at items in order, given what it does at the targets. -/
def meaning (calls : Calls) (go : Target → Behaviour) : List Item → Behaviour
  | [] => skip
  | item :: rest => item.meaning calls go (meaning calls go rest)

variable {calls : Calls} {go : Target → Behaviour}

theorem meaning_ops (ops : List Operation) (rest : List Item) :
    meaning calls go (ops.map .op ++ rest) = (Operation.behaviourAll calls ops).andThen (meaning calls go rest) := by
  induction ops with
  | nil => exact (skip_andThen _).symm
  | cons op ops ih =>
    rw [List.map_cons, List.cons_append, meaning, ih, Item.meaning, Operation.behaviourAll, andThen_assoc]

theorem meaning_jumpUnless {following : Option BlockId} {rest : List Item}
    (hrest : meaning calls go rest = onward (fun id => go (.block id)) following) (target : BlockId) :
    meaning calls go (jumpUnless following target ++ rest) = go (.block target) := by
  unfold jumpUnless
  split
  · rename_i hfollowing
    rw [List.nil_append, hrest, hfollowing, onward]
  · rfl

private theorem getD_dropLast {targets : List BlockId} {last : BlockId} (f : BlockId → Behaviour) (i : Nat) :
    (targets.map f).getD i (f last) = f ((targets ++ [last]).getD i last) := by
  rw [List.getD_eq_getElem?_getD, List.getD_eq_getElem?_getD, List.getElem?_map]
  by_cases hi : i < targets.length
  · rw [List.getElem?_append_left hi]
    rw [List.getElem?_eq_getElem hi]
    rfl
  · rw [List.getElem?_append_right (by omega), List.getElem?_eq_none (by omega)]
    cases i - targets.length <;> simp

/-- The code for an exit leads where the exit does.  What follows the code has to be the block placed after it. -/
theorem meaning_exitCode {following : Option BlockId} {rest : List Item} (hfinish : go .finish = skip)
    (hrest : meaning calls go rest = onward (fun id => go (.block id)) following) {exit : Exit}
    (hexit : exit ≠ .terminal) :
    meaning calls go (exitCode following exit ++ rest) = leaving (fun id => go (.block id)) exit := by
  cases exit with
  | opened =>
    rw [exitCode, leaving_opened]
    cases following with
    | none => exact hrest
    | some id => exact hfinish
  | next target =>
    rw [exitCode, leaving_next]
    exact meaning_jumpUnless hrest target
  | branch first second others =>
    cases others with
    | nil =>
      rw [exitCode, leaving_branch_two, List.cons_append, meaning, Item.meaning, meaning_jumpUnless hrest]
    | cons other others =>
      rw [exitCode, leaving_branch_more, List.cons_append, meaning, Item.meaning, meaning_jumpUnless hrest]
      congr 1
      funext i
      rw [List.map_map]
      have hsplit : first :: second :: (other :: others).dropLast ++ [(other :: others).getLast (by simp)] =
          first :: second :: other :: others := by
        rw [List.cons_append, List.cons_append, List.dropLast_append_getLast]
      rw [← hsplit]
      exact getD_dropLast (fun id => go (.block id)) i.toNat
  | terminal => exact absurd rfl hexit

end Linear

/-! ### Graphs that can be laid out -/

/-- What the layout asks of the blocks that control can reach from an entry. -/
structure WellFormedFrom (g : BlockGraph) (entry : BlockId) : Prop where
  closed : ∀ id, g.Reaches entry id → ∃ b, g.block? id = some b
  /-- Control moves between blocks by their exits only. -/
  plain : ∀ id b, g.Reaches entry id → g.block? id = some b → ∀ op ∈ b.ops, op.isJump = false
  /-- Control does not get past the operations of a block without an exit. -/
  ended : ∀ id b, g.Reaches entry id → g.block? id = some b → b.exit = .terminal →
    ∃ op, b.ops.getLast? = some op ∧ op.isTerminal = true

/-- It is enough that a set of blocks is sound of which control does not get out. -/
theorem WellFormedFrom.of_within {g : BlockGraph} {entry : BlockId} (within : BlockId → Prop) (hentry : within entry)
    (hsound : ∀ id, within id → ∃ b, g.block? id = some b ∧ (∀ op ∈ b.ops, op.isJump = false) ∧
      (b.exit = .terminal → ∃ op, b.ops.getLast? = some op ∧ op.isTerminal = true) ∧
      ∀ target ∈ b.exit.targets, within target) :
    g.WellFormedFrom entry := by
  have hreach : ∀ id, g.Reaches entry id → within id := by
    intro id hid
    induction hid with
    | refl => exact hentry
    | @tail id target _ htarget ih =>
      obtain ⟨b, hb, -, -, htargets⟩ := hsound id ih
      rw [successors, hb] at htarget
      exact htargets target htarget
  refine ⟨fun id hid => ?_, fun id b hid hb => ?_, fun id b hid hb => ?_⟩
  · obtain ⟨b, hb, -⟩ := hsound id (hreach id hid)
    exact ⟨b, hb⟩
  · obtain ⟨b', hb', hplain, -, -⟩ := hsound id (hreach id hid)
    obtain rfl := Option.some.inj (hb'.symm.trans hb)
    exact hplain
  · obtain ⟨b', hb', -, hended, -⟩ := hsound id (hreach id hid)
    obtain rfl := Option.some.inj (hb'.symm.trans hb)
    exact hended

theorem WellFormedFrom.trace {g : BlockGraph} {entry : BlockId} (hg : g.WellFormedFrom entry) :
    ∃ l, g.trace entry = .ok l := exists_trace hg.closed

namespace Linear

variable {calls : Calls} {go : Target → Behaviour}

/-! ### The meaning of placed blocks -/

theorem stops_behaviourAll {ops : List Operation} {op : Operation} (hlast : ops.getLast? = some op)
    (hop : op.isTerminal = true) (calls : Calls) : (Operation.behaviourAll calls ops).Stops := by
  obtain ⟨init, rfl⟩ := List.getLast?_eq_some_iff.1 hlast
  rw [Operation.behaviourAll_append, Operation.behaviourAll, Operation.behaviourAll, andThen_skip]
  exact stops_andThen_right (Operation.stops_behaviour hop calls)

/-- The items of a block mean what the block says, if what follows them is the block placed after it. -/
theorem meaning_block {b : Block} {following : Option BlockId} {rest : List Item} (hfinish : go .finish = skip)
    (hended : b.exit = .terminal → ∃ op, b.ops.getLast? = some op ∧ op.isTerminal = true)
    (hrest : meaning calls go rest = onward (fun id => go (.block id)) following) :
    meaning calls go (b.ops.map .op ++ exitCode following b.exit ++ rest) =
      (Operation.behaviourAll calls b.ops).andThen (leaving (fun id => go (.block id)) b.exit) := by
  rw [List.append_assoc, meaning_ops]
  by_cases hexit : b.exit = .terminal
  · obtain ⟨op, hlast, hop⟩ := hended hexit
    have hstops := stops_behaviourAll hlast hop calls
    rw [hstops.andThen, hstops.andThen]
  · rw [meaning_exitCode hfinish hrest hexit]

/-- What placed blocks mean, when control does at each of them what the block says. -/
theorem meaning_place {l : List (BlockId × Block)} (hfinish : go .finish = skip)
    (hended : ∀ x ∈ l, x.2.exit = .terminal → ∃ op, x.2.ops.getLast? = some op ∧ op.isTerminal = true)
    (hgo : ∀ x ∈ l, go (.block x.1) =
      (Operation.behaviourAll calls x.2.ops).andThen (leaving (fun id => go (.block id)) x.2.exit)) :
    meaning calls go ((place l).flatMap (·.2)) = onward (fun id => go (.block id)) (l.head?.map (·.1)) := by
  induction l with
  | nil => rfl
  | cons x l ih =>
    obtain ⟨id, b⟩ := x
    have hl := ih (fun y hy => hended y (List.mem_cons_of_mem _ hy)) fun y hy => hgo y (List.mem_cons_of_mem _ hy)
    have hb := meaning_block (b := b) hfinish (hended _ (List.mem_cons_self ..)) hl
    rw [place, List.flatMap_cons, hb]
    exact (hgo (id, b) (List.mem_cons_self ..)).symm

/-! ### Positions -/

theorem place_append (l l' : List (BlockId × Block)) :
    ∃ placed, place (l ++ l') = placed ++ place l' ∧ placed.map (·.1) = l.map (·.1) := by
  induction l with
  | nil => exact ⟨[], rfl, rfl⟩
  | cons x l ih =>
    obtain ⟨id, b⟩ := x
    obtain ⟨placed, hplace, hmap⟩ := ih
    refine ⟨(id, b.ops.map .op ++ exitCode ((l ++ l').head?.map (·.1)) b.exit) :: placed, ?_, ?_⟩
    · rw [List.cons_append, place, hplace]
      rfl
    · rw [List.map_cons, List.map_cons, hmap]

theorem startOf_append {placed placed' : List Placed} {id : BlockId} (h : id ∉ placed.map (·.1)) :
    startOf id (placed ++ placed') = (placed.flatMap (·.2)).length + startOf id placed' := by
  induction placed with
  | nil => simp
  | cons x placed ih =>
    obtain ⟨b, code⟩ := x
    rw [List.map_cons, List.mem_cons, not_or] at h
    rw [List.cons_append, startOf, if_neg (Ne.symm h.1), ih h.2, List.flatMap_cons, List.length_append, Nat.add_assoc]

theorem startOf_le (id : BlockId) (placed : List Placed) : startOf id placed ≤ (placed.flatMap (·.2)).length := by
  induction placed with
  | nil => simp [startOf]
  | cons x placed ih =>
    obtain ⟨b, code⟩ := x
    rw [startOf, List.flatMap_cons, List.length_append]
    split
    · exact Nat.zero_le _
    · exact Nat.add_le_add_left ih _

theorem Target.position_le (placed : List Placed) (t : Target) : t.position placed ≤ (placed.flatMap (·.2)).length := by
  cases t with
  | block id => exact startOf_le id placed
  | finish => exact le_refl _

/-- At the position of a block stands its code, and after that the code of the blocks placed after it. -/
theorem drop_startOf {l l' : List (BlockId × Block)} {id : BlockId} {b : Block}
    (hnodup : ((l ++ (id, b) :: l').map (·.1)).Nodup) :
    ((place (l ++ (id, b) :: l')).flatMap (·.2)).drop (startOf id (place (l ++ (id, b) :: l'))) =
      (place ((id, b) :: l')).flatMap (·.2) := by
  obtain ⟨placed, hplace, hmap⟩ := place_append l ((id, b) :: l')
  have hid : id ∉ placed.map (·.1) := by
    rw [hmap]
    rw [List.map_append, List.map_cons] at hnodup
    have hdisjoint := (List.nodup_append.1 hnodup).2.2
    exact fun hmem => hdisjoint id hmem id (List.mem_cons_self ..) rfl
  have hstart : startOf id (place ((id, b) :: l')) = 0 := by
    rw [place, startOf, if_pos rfl]
  rw [hplace, startOf_append hid, hstart, List.flatMap_append, Nat.add_zero, List.drop_left]

/-! ### Resolved items -/

theorem offset_eq_ok {source target : Nat} {o : Int32} (h : offset source target = .ok o) :
    source + o.toInt = target := by
  unfold offset at h
  dsimp only at h
  split at h
  · rename_i hfits
    cases h
    have hlow : Int32.minValue.toInt = -2 ^ 31 := by decide
    have hhigh : Int32.maxValue.toInt = 2 ^ 31 - 1 := by decide
    rw [Int32.toInt_ofInt_of_le (by omega) (by omega)]
    omega
  · cases h

/-- The targets of the jumps of an item. -/
def Item.targets : Item → List Target
  | .op _ => []
  | .jump t | .jumpIfFalse t => [t]
  | .switch ts => ts

theorem length_resolveFrom {placed : List Placed} {start : Nat} {items : List Item} {ops : List Operation}
    (h : resolveFrom placed start items = .ok ops) : ops.length = items.length := by
  induction items generalizing start ops with
  | nil =>
    cases h
    rfl
  | cons item items ih =>
    rw [resolveFrom] at h
    obtain ⟨op, -, h⟩ := except_bind_eq_ok.1 h
    obtain ⟨rest, hrest, h⟩ := except_bind_eq_ok.1 h
    cases h
    rw [List.length_cons, List.length_cons, ih hrest]

theorem getElem?_resolveFrom {placed : List Placed} {start : Nat} {items : List Item} {ops : List Operation}
    (h : resolveFrom placed start items = .ok ops) {i : Nat} {item : Item} (hi : items[i]? = some item) :
    ∃ op, ops[i]? = some op ∧ resolve placed (start + i) item = .ok op := by
  induction items generalizing start ops i with
  | nil => cases hi
  | cons first items ih =>
    rw [resolveFrom] at h
    obtain ⟨op, hop, h⟩ := except_bind_eq_ok.1 h
    obtain ⟨rest, hrest, h⟩ := except_bind_eq_ok.1 h
    cases h
    cases i with
    | zero =>
      obtain rfl := Option.some.inj hi
      exact ⟨op, rfl, hop⟩
    | succ i =>
      rw [List.getElem?_cons_succ] at hi ⊢
      have hstart : start + (i + 1) = start + 1 + i := by omega
      rw [hstart]
      exact ih hrest hi

/-- If items cannot be resolved, the distance of one of their jumps is to blame. -/
theorem resolveFrom_eq_error {placed : List Placed} {start : Nat} {items : List Item} {e : CompileError}
    (h : resolveFrom placed start items = .error e) :
    ∃ i item, items[i]? = some item ∧ ∃ t ∈ item.targets, offset (start + i) (t.position placed) = .error e := by
  induction items generalizing start with
  | nil => cases h
  | cons item items ih =>
    rw [resolveFrom] at h
    rcases except_bind_eq_error.1 h with hitem | ⟨op, -, h⟩
    · refine ⟨0, item, rfl, ?_⟩
      cases item with
      | op o => cases hitem
      | jump t =>
        rcases except_bind_eq_error.1 hitem with ho | ⟨o, -, ho⟩
        · exact ⟨t, List.mem_cons_self .., ho⟩
        · cases ho
      | jumpIfFalse t =>
        rcases except_bind_eq_error.1 hitem with ho | ⟨o, -, ho⟩
        · exact ⟨t, List.mem_cons_self .., ho⟩
        · cases ho
      | switch ts =>
        rcases except_bind_eq_error.1 hitem with ho | ⟨o, -, ho⟩
        · exact exists_of_mapM ho
        · cases ho
    rcases except_bind_eq_error.1 h with hrest | ⟨rest, -, h⟩
    · obtain ⟨i, item', hi, t, ht, ho⟩ := ih hrest
      have hstart : start + (i + 1) = start + 1 + i := by omega
      refine ⟨i + 1, item', hi, t, ht, ?_⟩
      rw [hstart]
      exact ho
    · cases h

theorem move_resolved {placed : List Placed} {ops : List Operation} {code : CodeObject}
    (h : resolveFrom placed 0 (placed.flatMap (·.2)) = .ok ops) (hcode : code.ops = ops.toArray) {pos : Nat}
    {item : Item} (hitem : (placed.flatMap (·.2))[pos]? = some item)
    (hplain : ∀ o, item = .op o → o.isJump = false) (go : Nat → Behaviour) :
    code.move calls go pos = item.meaning calls (fun t => go (t.position placed)) (go (pos + 1)) := by
  obtain ⟨op, hop, hresolve⟩ := getElem?_resolveFrom h hitem
  rw [Nat.zero_add] at hresolve
  have hpos : code.ops[pos]? = some op := by
    rw [hcode, List.getElem?_toArray]
    exact hop
  have hsize : ∀ t : Target, t.position placed ≤ code.ops.size := by
    intro t
    rw [hcode, List.size_toArray, length_resolveFrom h]
    exact t.position_le placed
  cases item with
  | op o =>
    cases hresolve
    exact CodeObject.move_op hpos (hplain op rfl)
  | jump t =>
    obtain ⟨o, ho, hresolve⟩ := except_bind_eq_ok.1 hresolve
    cases hresolve
    exact CodeObject.move_jump hpos (offset_eq_ok ho) (hsize t)
  | jumpIfFalse t =>
    obtain ⟨o, ho, hresolve⟩ := except_bind_eq_ok.1 hresolve
    cases hresolve
    exact CodeObject.move_jumpIfFalse hpos (offset_eq_ok ho) (hsize t)
  | switch ts =>
    obtain ⟨os, hos, hresolve⟩ := except_bind_eq_ok.1 hresolve
    cases hresolve
    have hall : List.Forall₂ (fun (o : Int32) (target : Nat) => pos + o.toInt = (target : Int)) os
        (ts.map (·.position placed)) := by
      rw [List.forall₂_map_right_iff]
      exact ((forall₂_of_mapM hos).imp fun t o ho => offset_eq_ok ho).flip
    rw [CodeObject.move_switch hpos hall]
    · rw [Item.meaning, List.map_map]
      rfl
    · intro target htarget
      obtain ⟨t, -, rfl⟩ := List.mem_map.1 htarget
      exact hsize t

end Linear

/-! ### The linear code of a graph -/

section LaidOut

variable {g : BlockGraph} {entry : BlockId} {l : List (BlockId × Block)} {ops : List Operation} {code : CodeObject}
  {calls : Calls}

open Linear

theorem mem_of_op_mem_place {o : Operation} (h : Item.op o ∈ (place l).flatMap (·.2)) : ∃ x ∈ l, o ∈ x.2.ops := by
  induction l with
  | nil => cases h
  | cons x l ih =>
    obtain ⟨id, b⟩ := x
    rw [place, List.flatMap_cons, List.mem_append, List.mem_append] at h
    rcases h with (hop | hexit) | hrest
    · obtain ⟨o', ho', heq⟩ := List.mem_map.1 hop
      cases heq
      exact ⟨(id, b), List.mem_cons_self .., ho'⟩
    · exfalso
      unfold exitCode jumpUnless at hexit
      split at hexit <;> try split at hexit
      all_goals simp at hexit
    · obtain ⟨x, hx, ho⟩ := ih hrest
      exact ⟨x, List.mem_cons_of_mem _ hx, ho⟩

theorem mem_trace (htrace : g.trace entry = .ok l) {x : BlockId × Block} (hx : x ∈ l) :
    g.Reaches entry x.1 ∧ g.block? x.1 = some x.2 := by
  obtain ⟨hmap, hblock⟩ := trace_eq htrace
  refine ⟨mem_order_iff.1 ?_, hblock x hx⟩
  rw [← hmap]
  exact List.mem_map_of_mem hx

theorem startOf_eq_length {id : BlockId} (h : id ∉ l.map (·.1)) :
    startOf id (place l) = ((place l).flatMap (·.2)).length := by
  obtain ⟨placed, hplace, hmap⟩ := place_append l []
  rw [List.append_nil] at hplace
  have hstart : startOf id (placed ++ place []) = _ := startOf_append (by rw [hmap]; exact h)
  rw [hplace, hstart, List.flatMap_append, List.length_append]
  rfl

/-- What a walk does from the targets of the blocks of a trace. -/
def walkTo (calls : Calls) (g : BlockGraph) (l : List (BlockId × Block)) : Target → Behaviour
  | .block id => if id ∈ l.map (·.1) then g.Walks calls id else skip
  | .finish => skip

theorem walkTo_block (htrace : g.trace entry = .ok l) {x : BlockId × Block} (hx : x ∈ l) :
    walkTo calls g l (.block x.1) = (Operation.behaviourAll calls x.2.ops).andThen
      (leaving (fun id => walkTo calls g l (.block id)) x.2.exit) := by
  obtain ⟨hreach, hblock⟩ := mem_trace htrace hx
  rw [walkTo, if_pos (List.mem_map_of_mem hx), walks_eq hblock]
  congr 1
  refine leaving_congr fun target htarget => ?_
  have hsucc : target ∈ g.successors x.1 := by
    rw [successors, hblock]
    exact htarget
  have hmem : target ∈ l.map (·.1) := by
    rw [(trace_eq htrace).1]
    exact mem_order_iff.2 (hreach.tail hsucc)
  rw [walkTo, if_pos hmem]

variable (hg : g.WellFormedFrom entry) (htrace : g.trace entry = .ok l)
  (hres : resolveFrom (place l) 0 ((place l).flatMap (·.2)) = .ok ops) (hcode : code.ops = ops.toArray)

include hg htrace hres hcode

theorem move_laidOut {pos : Nat} {item : Item} (hitem : ((place l).flatMap (·.2))[pos]? = some item)
    (go : Nat → Behaviour) :
    code.move calls go pos = item.meaning calls (fun t => go (t.position (place l))) (go (pos + 1)) := by
  refine move_resolved hres hcode hitem ?_ go
  rintro o rfl
  obtain ⟨x, hx, ho⟩ := mem_of_op_mem_place (List.mem_of_getElem? hitem)
  obtain ⟨hreach, hblock⟩ := mem_trace htrace hx
  exact hg.plain x.1 x.2 hreach hblock o ho

omit hg htrace in
theorem move_end_laidOut {pos : Nat} (hpos : ((place l).flatMap (·.2))[pos]? = none) (go : Nat → Behaviour) :
    code.move calls go pos = skip := by
  refine CodeObject.move_end ?_
  rw [hcode, List.getElem?_toArray, List.getElem?_eq_none_iff, length_resolveFrom hres]
  exact List.getElem?_eq_none_iff.1 hpos

theorem runs_laidOut (pos : Nat) :
    code.Runs calls pos =
      meaning calls (fun t => code.Runs calls (t.position (place l))) (((place l).flatMap (·.2)).drop pos) := by
  -- from the end of the items backward
  induction hleft : ((place l).flatMap (·.2)).length - pos generalizing pos with
  | zero =>
    have hpos : ((place l).flatMap (·.2))[pos]? = none := List.getElem?_eq_none_iff.2 (by omega)
    rw [CodeObject.runs_eq, move_end_laidOut hres hcode hpos, List.drop_eq_nil_iff.2 (by omega)]
    rfl
  | succ left ih =>
    have hlt : pos < ((place l).flatMap (·.2)).length := by omega
    rw [CodeObject.runs_eq, move_laidOut hg htrace hres hcode (List.getElem?_eq_getElem hlt),
      List.drop_eq_getElem_cons hlt, meaning, ih (pos + 1) (by omega)]

/-- From the position of a block a run goes through the operations of the block, and then where its exit leads. -/
theorem runs_startOf {id : BlockId} {b : Block} (hmem : (id, b) ∈ l) :
    code.Runs calls (startOf id (place l)) = (Operation.behaviourAll calls b.ops).andThen
      (leaving (fun target => code.Runs calls (startOf target (place l))) b.exit) := by
  have hnodup : (l.map (·.1)).Nodup := by
    rw [(trace_eq htrace).1]
    exact order_nodup g entry
  obtain ⟨hreach, hblock⟩ := mem_trace htrace hmem
  obtain ⟨before, after, hl⟩ := List.append_of_mem hmem
  have hruns : ∀ pos, code.Runs calls pos =
      meaning calls (fun t => code.Runs calls (t.position (place l))) (((place l).flatMap (·.2)).drop pos) :=
    runs_laidOut hg htrace hres hcode
  have hrest : meaning calls (fun t => code.Runs calls (t.position (place l))) ((place after).flatMap (·.2)) =
      onward (fun target => code.Runs calls (startOf target (place l))) (after.head?.map (·.1)) := by
    cases hafter : after with
    | nil => rfl
    | cons x after' =>
      obtain ⟨id', b'⟩ := x
      have hl' : l = (before ++ [(id, b)]) ++ (id', b') :: after' := by rw [hl, hafter]; simp
      rw [hl'] at hnodup
      have hdrop := drop_startOf hnodup
      rw [← hl'] at hdrop
      rw [← hdrop, ← hruns]
      rfl
  have hfinish : code.Runs calls (Target.finish.position (place l)) = skip := by
    rw [hruns, Target.position, List.drop_length]
    rfl
  rw [hl] at hnodup
  have hdrop := drop_startOf hnodup
  rw [← hl] at hdrop
  rw [hruns, hdrop, place, List.flatMap_cons]
  exact meaning_block hfinish (hg.ended id b hreach hblock) hrest

omit hres hcode in
/-- From the position of a target, items mean what a walk does from it. -/
theorem meaning_drop_position (t : Target) :
    meaning calls (walkTo calls g l) (((place l).flatMap (·.2)).drop (t.position (place l))) = walkTo calls g l t := by
  cases t with
  | finish =>
    rw [Target.position, List.drop_length]
    rfl
  | block id =>
    by_cases hid : id ∈ l.map (·.1)
    · obtain ⟨⟨id, b⟩, hmem, rfl⟩ := List.mem_map.1 hid
      obtain ⟨before, after, hl⟩ := List.append_of_mem hmem
      have hnodup : (l.map (·.1)).Nodup := by
        rw [(trace_eq htrace).1]
        exact order_nodup g entry
      rw [hl] at hnodup
      have hdrop := drop_startOf hnodup
      rw [← hl] at hdrop
      have hsub : ∀ x ∈ (id, b) :: after, x ∈ l := by
        intro x hx
        rw [hl]
        exact List.mem_append_right _ hx
      rw [Target.position, hdrop]
      refine meaning_place rfl (fun x hx => ?_) fun x hx => walkTo_block htrace (hsub x hx)
      obtain ⟨hreach, hblock⟩ := mem_trace htrace (hsub x hx)
      exact hg.ended x.1 x.2 hreach hblock
    · rw [Target.position, startOf_eq_length hid, List.drop_length, walkTo, if_neg hid]
      rfl

/-- From the position of a block the code does what a walk of the graph does from there. -/
theorem runs_startOf_eq_walks {id : BlockId} (hid : id ∈ l.map (·.1)) :
    code.Runs calls (startOf id (place l)) = g.Walks calls id := by
  refine le_antisymm ?_ ?_
  · -- the meaning of the items for walks is kept by every move of the code
    have hmove : ∀ pos, code.move calls
        (fun pos => meaning calls (walkTo calls g l) (((place l).flatMap (·.2)).drop pos)) pos ≤
          meaning calls (walkTo calls g l) (((place l).flatMap (·.2)).drop pos) := by
      intro pos
      refine le_of_eq ?_
      cases hitem : ((place l).flatMap (·.2))[pos]? with
      | none =>
        rw [move_end_laidOut hres hcode hitem, List.drop_eq_nil_iff.2 (List.getElem?_eq_none_iff.1 hitem)]
        rfl
      | some item =>
        obtain ⟨hlt, hget⟩ := List.getElem?_eq_some_iff.1 hitem
        rw [move_laidOut hg htrace hres hcode hitem, List.drop_eq_getElem_cons hlt, hget, meaning]
        congr 1
        funext t
        exact meaning_drop_position hg htrace t
    have hruns := CodeObject.runs_le hmove (startOf id (place l))
    have hmeaning : meaning calls (walkTo calls g l) _ = _ := meaning_drop_position hg htrace (.block id)
    rw [Target.position, walkTo, if_pos hid] at hmeaning
    rwa [hmeaning] at hruns
  · -- the other way round, a run from the position of a block does what the block says
    refine walks_le (fun id => code.Runs calls (startOf id (place l))) (g.Reaches entry)
      (fun id hid target htarget => hid.tail htarget) (fun id b hid hb => ?_) ?_
    · have hid' : id ∈ l.map (·.1) := by
        rw [(trace_eq htrace).1]
        exact mem_order_iff.2 hid
      obtain ⟨⟨id, b'⟩, hmem, rfl⟩ := List.mem_map.1 hid'
      obtain ⟨-, hb'⟩ := mem_trace htrace hmem
      obtain rfl := Option.some.inj (hb'.symm.trans hb)
      exact le_of_eq (runs_startOf hg htrace hres hcode hmem).symm
    · rw [(trace_eq htrace).1] at hid
      exact mem_order_iff.1 hid

/-- The code does what a walk of the graph does. -/
theorem runs_eq_walks : code.Runs calls 0 = g.Walks calls entry := by
  have hentry : entry ∈ l.map (·.1) := by
    rw [(trace_eq htrace).1]
    exact List.mem_of_head? (head?_order g entry)
  have hstart : startOf entry (place l) = 0 := by
    have hhead : l.head?.map (·.1) = some entry := by
      rw [← List.head?_map, (trace_eq htrace).1, head?_order]
    cases l with
    | nil => rfl
    | cons x l =>
      obtain ⟨id, b⟩ := x
      rw [place, startOf, if_pos (Option.some.inj hhead)]
  rw [← hstart]
  exact runs_startOf_eq_walks hg htrace hres hcode hentry

end LaidOut

/-! ### The layout as a whole -/

open Linear Progress

/-- A jump among placed items has a distance that the machine has no offset for. -/
def Linear.JumpsTooFar (placed : List Placed) : Prop :=
  ∃ (pos : Nat) (item : Item), (placed.flatMap (·.2))[pos]? = some item ∧ ∃ t ∈ item.targets,
    ¬ (Int32.minValue.toInt ≤ (t.position placed : Int) - pos ∧
      (t.position placed : Int) - pos ≤ Int32.maxValue.toInt)

/-- The linear code of a graph does what a walk of the graph does. -/
theorem runs_of_linearize {g : BlockGraph} {entry : BlockId} (hg : g.WellFormedFrom entry) {ops : List Operation}
    (h : g.linearize entry = .ok ops) {code : CodeObject} (hcode : code.ops = ops.toArray) (calls : Calls) :
    code.Runs calls 0 = g.Walks calls entry := by
  obtain ⟨l, htrace, hres⟩ := except_bind_eq_ok.1 h
  exact runs_eq_walks hg htrace hres hcode

/-- An item stands for its operation, or for a jump. -/
theorem resolve_eq_ok {placed : List Placed} {position : Nat} {item : Item} {op : Operation}
    (h : resolve placed position item = .ok op) : op.isJump = true ∨ item = .op op := by
  cases item with
  | op o =>
    cases h
    exact .inr rfl
  | jump t | jumpIfFalse t | switch ts =>
    obtain ⟨o, -, h⟩ := except_bind_eq_ok.1 h
    cases h
    exact .inl rfl

/-- The operations of the code stand where their items do. -/
theorem getElem?_linear {placed : List Placed} {items : List Item} {ops : List Operation}
    (hres : resolveFrom placed 0 items = .ok ops) {i : Nat} {op : Operation} (hop : ops[i]? = some op) :
    op.isJump = true ∨ items[i]? = some (.op op) := by
  have hlt : i < items.length := by
    rw [← length_resolveFrom hres]
    exact (List.getElem?_eq_some_iff.1 hop).1
  obtain ⟨op', hop', hresolve⟩ := getElem?_resolveFrom hres (List.getElem?_eq_getElem hlt)
  obtain rfl := Option.some.inj (hop.symm.trans hop')
  exact (resolve_eq_ok hresolve).imp_right fun heq => by rw [List.getElem?_eq_getElem hlt, heq]

/-- The operations of the code are those of blocks that control can reach, and jumps between them. -/
theorem mem_linearize {g : BlockGraph} {entry : BlockId} {ops : List Operation} (h : g.linearize entry = .ok ops)
    {op : Operation} (hop : op ∈ ops) :
    op.isJump = true ∨ ∃ id b, g.Reaches entry id ∧ g.block? id = some b ∧ op ∈ b.ops := by
  obtain ⟨l, htrace, hres⟩ := except_bind_eq_ok.1 h
  obtain ⟨i, hi⟩ := List.getElem?_of_mem hop
  refine (getElem?_linear hres hi).imp_right fun hitem => ?_
  obtain ⟨x, hx, ho⟩ := mem_of_op_mem_place (List.mem_of_getElem? hitem)
  obtain ⟨hreach, hblock⟩ := mem_trace htrace hx
  exact ⟨x.1, x.2, hreach, hblock, ho⟩

/-- The layout of a sound graph fails only for a jump that is too long. -/
theorem exists_of_linearize_eq_error {g : BlockGraph} {entry : BlockId} (hg : g.WellFormedFrom entry)
    {e : CompileError} (h : g.linearize entry = .error e) :
    e = .offsetTooLarge ∧ ∃ l, g.trace entry = .ok l ∧ JumpsTooFar (place l) := by
  rcases except_bind_eq_error.1 h with htrace | ⟨l, htrace, hres⟩
  · obtain ⟨l, hl⟩ := hg.trace
    rw [hl] at htrace
    cases htrace
  · obtain ⟨pos, item, hitem, t, ht, hoffset⟩ := resolveFrom_eq_error hres
    unfold offset at hoffset
    dsimp only at hoffset
    split at hoffset
    · cases hoffset
    · rename_i hfits
      cases hoffset
      rw [Nat.zero_add] at hfits
      exact ⟨rfl, l, htrace, pos, item, hitem, t, ht, hfits⟩

/-- Laying out a graph keeps its meaning.  Whatever its calls do, the code does from its first operation what a walk of
the graph does from the entry; and so does the machine in any program, unless one of its limits ends the run.  There
is code unless some jump is too long. -/
theorem linearize_preserves {g : BlockGraph} {entry : BlockId} (hg : g.WellFormedFrom entry) :
    (∀ ops name, g.linearize entry = .ok ops →
      (∀ calls, (CodeObject.mk name ops.toArray).Runs calls 0 = g.Walks calls entry) ∧
      ∀ m p callers mem steps,
        (∀ f mem', g.Walks p.calls entry mem f mem' →
          (running ⟨⟨⟨name, ops.toArray⟩, 0⟩, callers, mem, steps⟩).Leads m p
            fun r => ∃ steps', r = departing ⟨name, ops.toArray⟩ callers mem' steps' f) ∧
        ∀ n, ((running ⟨⟨⟨name, ops.toArray⟩, 0⟩, callers, mem, steps⟩).after m p n).Surfaced callers.length →
          ¬ ((running ⟨⟨⟨name, ops.toArray⟩, 0⟩, callers, mem, steps⟩).after m p n).Limited →
          ∃ k f mem' steps', k ≤ n ∧ g.Walks p.calls entry mem f mem' ∧
            (running ⟨⟨⟨name, ops.toArray⟩, 0⟩, callers, mem, steps⟩).after m p k =
              departing ⟨name, ops.toArray⟩ callers mem' steps' f) ∧
    ∀ e, g.linearize entry = .error e → e = .offsetTooLarge ∧ ∃ l, g.trace entry = .ok l ∧ JumpsTooFar (place l) := by
  refine ⟨fun ops name h => ?_, fun e h => exists_of_linearize_eq_error hg h⟩
  have hruns : ∀ calls, (CodeObject.mk name ops.toArray).Runs calls 0 = g.Walks calls entry :=
    fun calls => runs_of_linearize hg h rfl calls
  refine ⟨hruns, fun m p callers mem steps => ⟨fun f mem' hwalk => ?_, fun n hover hlim => ?_⟩⟩
  · rw [← hruns] at hwalk
    exact CodeObject.leads_of_runs hwalk callers steps
  · rw [← hruns]
    exact CodeObject.runs_of_surfaced hover hlim

/-- A graph with a cycle: control comes back to the first block, or fails in the last. -/
def cycle : BlockGraph :=
  ⟨#[⟨[.load 0], .branch ⟨1⟩ ⟨2⟩ []⟩, ⟨[], .next ⟨0⟩⟩, ⟨[.err], .terminal⟩]⟩

theorem wellFormedFrom_cycle : cycle.WellFormedFrom ⟨0⟩ := by
  refine .of_within (fun id => id ∈ [⟨0⟩, ⟨1⟩, ⟨2⟩]) (by simp) fun id hid => ?_
  simp only [List.mem_cons, List.not_mem_nil, or_false] at hid
  rcases hid with rfl | rfl | rfl
  · exact ⟨_, rfl, by decide, by decide, by decide⟩
  · exact ⟨_, rfl, by decide, by decide, by decide⟩
  · exact ⟨_, rfl, by decide, fun _ => ⟨.err, rfl, rfl⟩, by decide⟩

theorem linearize_cycle : cycle.linearize ⟨0⟩ = .ok [.load 0, .jumpIfFalse 2, .jump (-2), .err] := by
  cbv

/-- The law of the layout at a graph with a cycle. -/
theorem linearize_preserves_cycle :
    cycle.WellFormedFrom ⟨0⟩ ∧ cycle.linearize ⟨0⟩ = .ok [.load 0, .jumpIfFalse 2, .jump (-2), .err] ∧
      ∀ calls, (CodeObject.mk "cycle" #[.load 0, .jumpIfFalse 2, .jump (-2), .err]).Runs calls 0 =
        cycle.Walks calls ⟨0⟩ :=
  ⟨wellFormedFrom_cycle, linearize_cycle,
    ((linearize_preserves wellFormedFrom_cycle).1 _ "cycle" linearize_cycle).1⟩

end ScratchMachine.BlockGraph
