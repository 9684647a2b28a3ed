import ScratchMachine.Proofs.Layout
import ScratchMachine.Proofs.Spans

/-!
# The portions of linear code

Linear code is made of portions, one for each block that control can reach, in the order of the search.  A portion has
the operations of its block and then the jumps that were added for the exit of the block.  The jumps are written while
the portions behind them are not known yet, and resolved by a table of where portions begin; the table agrees with the
code as it is in the end, and also tells where portions without any code are.

* `Linear.Closes`: which jumps stand behind the operations of a block, and where their offsets lead.
* `Arranges`: portions that belong to the blocks of a graph.
* `Linear.Cut.startOf_eq`: the table has the positions where the portions begin in the code.
* `linearize_keeps_blocks`: the code of a graph has every block once, and besides only jumps along the edges.
-/

namespace ScratchMachine.BlockGraph

open Fallible

namespace Linear

/-! ### Portions -/

/-- The code of one block: its own operations, and then the jumps that are added for its exit. -/
@[ext] structure Portion where
  id : BlockId
  own : List Operation
  added : List Operation

def Portion.code (p : Portion) : List Operation := p.own ++ p.added

/-- The code of portions, one after another. -/
def codeOf (portions : List Portion) : List Operation := portions.flatMap Portion.code

/-- The position where the code of the portion with an index begins. -/
def beginning (portions : List Portion) (i : Nat) : Nat := (codeOf (portions.take i)).length

@[simp] theorem codeOf_cons (p : Portion) (portions : List Portion) :
    codeOf (p :: portions) = p.code ++ codeOf portions := rfl

@[simp] theorem beginning_zero (portions : List Portion) : beginning portions 0 = 0 := rfl

@[simp] theorem beginning_succ (p : Portion) (portions : List Portion) (i : Nat) :
    beginning (p :: portions) (i + 1) = p.code.length + beginning portions i := by
  rw [beginning, List.take_succ_cons, codeOf_cons, List.length_append, beginning]

/-- From the position where a portion begins on, the code is that of the portion. -/
theorem getElem?_codeOf {portions : List Portion} {i : Nat} {p : Portion} (hp : portions[i]? = some p) {k : Nat}
    {op : Operation} (hop : p.code[k]? = some op) : (codeOf portions)[beginning portions i + k]? = some op := by
  induction portions generalizing i with
  | nil => cases hp
  | cons first portions ih =>
    cases i with
    | zero =>
      obtain rfl := Option.some.inj hp
      rw [beginning_zero, Nat.zero_add, codeOf_cons, List.getElem?_append_left (List.getElem?_eq_some_iff.1 hop).1, hop]
    | succ i =>
      rw [beginning_succ, codeOf_cons, Nat.add_assoc, List.getElem?_append_right (Nat.le_add_right _ _),
        Nat.add_sub_cancel_left]
      exact ih hp

/-- An offset leads from a position to where the code of a block begins. -/
def LandsOn (portions : List Portion) (position : Nat) (target : BlockId) (offset : Int32) : Prop :=
  ∃ i p, portions[i]? = some p ∧ p.id = target ∧ position + offset.toInt = beginning portions i

/-- What stands at a position to go on at a block: a jump, or nothing if that block is placed next. -/
inductive GoesOn (portions : List Portion) (following : Option BlockId) (position : Nat) (target : BlockId) :
    List Operation → Prop
  | falls : following = some target → GoesOn portions following position target []
  | jumps {offset : Int32} : following ≠ some target → LandsOn portions position target offset →
      GoesOn portions following position target [.jump offset]

/-- What stands at a position, right behind the operations of a block, for the exit of the block. -/
inductive Closes (portions : List Portion) (following : Option BlockId) (position : Nat) :
    Exit → List Operation → Prop
  /-- Behind an open block that is placed last, the code is at its end. -/
  | last : following = none → Closes portions following position .opened []
  | finish {offset : Int32} : following ≠ none → position + offset.toInt = (codeOf portions).length →
      Closes portions following position .opened [.jump offset]
  | next {target : BlockId} {code : List Operation} : GoesOn portions following position target code →
      Closes portions following position (.next target) code
  | either {first second : BlockId} {offset : Int32} {code : List Operation} :
      LandsOn portions position second offset → GoesOn portions following (position + 1) first code →
      Closes portions following position (.branch first second []) (.jumpIfFalse offset :: code)
  /-- Of more than two targets, the last one is taken if the switch picks none of the others. -/
  | pick {first second default : BlockId} {others picked : List BlockId} {offsets : List Int32}
      {code : List Operation} : others ≠ [] → first :: second :: others = picked ++ [default] →
      List.Forall₂ (LandsOn portions position) picked offsets → GoesOn portions following (position + 1) default code →
      Closes portions following position (.branch first second others) (.switch offsets :: code)
  | terminal : Closes portions following position .terminal []

end Linear

open Linear

/-- The portions belong to the blocks that control can reach from an entry, in the order of the search. -/
structure Arranges (g : BlockGraph) (entry : BlockId) (portions : List Portion) : Prop where
  order : g.reachable entry = .ok (portions.map (·.id))
  block : ∀ i p, portions[i]? = some p → ∃ b, g.block? p.id = some b ∧ p.own = b.ops ∧
    Closes portions (portions[i + 1]?.map (·.id)) (beginning portions i + p.own.length) b.exit p.added

namespace Linear

/-! ### Cutting code into portions -/

variable {portions : List Portion} {following : Option BlockId} {position : Nat} {exit : Exit} {added : List Operation}

theorem resolveFrom_cons_eq_ok {placed : List Placed} {start : Nat} {item : Item} {items : List Item}
    {ops : List Operation} (h : resolveFrom placed start (item :: items) = .ok ops) :
    ∃ op code, ops = op :: code ∧ resolve placed start item = .ok op ∧ resolveFrom placed (start + 1) items = .ok code := by
  obtain ⟨op, hop, h⟩ := except_bind_eq_ok.1 h
  obtain ⟨code, hcode, h⟩ := except_bind_eq_ok.1 h
  cases h
  exact ⟨op, code, rfl, hop, hcode⟩

theorem resolveFrom_append_eq_ok {placed : List Placed} {start : Nat} {items items' : List Item} {ops : List Operation}
    (h : resolveFrom placed start (items ++ items') = .ok ops) :
    ∃ code code', ops = code ++ code' ∧ resolveFrom placed start items = .ok code ∧
      resolveFrom placed (start + items.length) items' = .ok code' := by
  induction items generalizing start ops with
  | nil => exact ⟨[], ops, rfl, rfl, h⟩
  | cons item items ih =>
    obtain ⟨op, rest, rfl, hop, hrest⟩ := resolveFrom_cons_eq_ok h
    obtain ⟨code, code', rfl, hcode, hcode'⟩ := ih hrest
    refine ⟨op :: code, code', rfl, ?_, ?_⟩
    · rw [resolveFrom, hop, hcode]
      rfl
    · rw [List.length_cons, Nat.add_comm items.length, ← Nat.add_assoc]
      exact hcode'

theorem resolveFrom_ops (placed : List Placed) (start : Nat) (ops : List Operation) :
    resolveFrom placed start (ops.map .op) = .ok ops := by
  induction ops generalizing start with
  | nil => rfl
  | cons op ops ih =>
    rw [List.map_cons, resolveFrom, ih]
    rfl

/-- Blocks whose code begins at a position, and the portions that this code is cut into. -/
inductive Cut (placed : List Placed) : Nat → List (BlockId × Block) → List Portion → Prop
  | nil {position : Nat} : Cut placed position [] []
  | cons {position : Nat} {id : BlockId} {b : Block} {l : List (BlockId × Block)} {added : List Operation}
      {portions : List Portion} :
      resolveFrom placed (position + b.ops.length) (exitCode (l.head?.map (·.1)) b.exit) = .ok added →
      Cut placed (position + b.ops.length + added.length) l portions →
      Cut placed position ((id, b) :: l) (⟨id, b.ops, added⟩ :: portions)

theorem exists_cut {placed : List Placed} {start : Nat} {l : List (BlockId × Block)} {ops : List Operation}
    (h : resolveFrom placed start ((place l).flatMap (·.2)) = .ok ops) :
    ∃ portions, Cut placed start l portions ∧ codeOf portions = ops := by
  -- the blocks are cut off one by one, with the table of all of them throughout
  induction l generalizing start ops with
  | nil =>
    cases h
    exact ⟨[], .nil, rfl⟩
  | cons x l ih =>
    obtain ⟨id, b⟩ := x
    rw [place, List.flatMap_cons, List.append_assoc] at h
    obtain ⟨own, behind, rfl, hown, h⟩ := resolveFrom_append_eq_ok h
    obtain ⟨added, rest, rfl, hadded, hrest⟩ := resolveFrom_append_eq_ok h
    rw [resolveFrom_ops] at hown
    cases hown
    rw [List.length_map] at hadded hrest
    rw [← length_resolveFrom hadded] at hrest
    obtain ⟨portions, hcut, rfl⟩ := ih hrest
    exact ⟨⟨id, b.ops, added⟩ :: portions, .cons hadded hcut, List.append_assoc ..⟩

namespace Cut

variable {placed : List Placed} {l : List (BlockId × Block)} {i : Nat} {p : Portion}

theorem map_id (h : Cut placed position l portions) : portions.map (·.id) = l.map (·.1) := by
  induction h with
  | nil => rfl
  | cons _ _ ih => rw [List.map_cons, List.map_cons, ih]

theorem flatMap_own (h : Cut placed position l portions) : portions.flatMap (·.own) = l.flatMap (·.2.ops) := by
  induction h with
  | nil => rfl
  | cons _ _ ih => rw [List.flatMap_cons, List.flatMap_cons, ih]

theorem length_codeOf (h : Cut placed position l portions) :
    ((place l).flatMap (·.2)).length = (codeOf portions).length := by
  induction h with
  | nil => rfl
  | cons hadded _ ih => simp [place, Portion.code, ih, length_resolveFrom hadded]

/-- A portion has the operations of its block and its resolved exit. -/
theorem getElem? (h : Cut placed position l portions) (hp : portions[i]? = some p) :
    ∃ b, (p.id, b) ∈ l ∧ p.own = b.ops ∧
      resolveFrom placed (position + (beginning portions i + p.own.length))
        (exitCode (portions[i + 1]?.map (·.id)) b.exit) = .ok p.added := by
  induction h generalizing i with
  | nil => cases hp
  | @cons position id b l added portions hadded hcut ih =>
    cases i with
    | zero =>
      obtain rfl := Option.some.inj hp
      have hnext : portions[0]?.map (·.id) = l.head?.map (·.1) := by
        rw [← List.head?_eq_getElem?, ← List.head?_map, ← List.head?_map, hcut.map_id]
      refine ⟨b, List.mem_cons_self .., rfl, ?_⟩
      rw [List.getElem?_cons_succ, hnext, beginning_zero, Nat.zero_add]
      exact hadded
    | succ i =>
      obtain ⟨b', hb', hown, hresolve⟩ := ih hp
      refine ⟨b', List.mem_cons_of_mem _ hb', hown, ?_⟩
      have hposition : position + (beginning (⟨id, b.ops, added⟩ :: portions) (i + 1) + p.own.length) =
          position + b.ops.length + added.length + (beginning portions i + p.own.length) := by
        simp only [beginning_succ, Portion.code, List.length_append]
        omega
      rw [List.getElem?_cons_succ, hposition]
      exact hresolve

/-- The table has the positions where the portions begin. -/
theorem startOf_eq (h : Cut placed position l portions) (hnodup : (l.map (·.1)).Nodup) (hp : portions[i]? = some p) :
    startOf p.id (place l) = beginning portions i := by
  induction h generalizing i with
  | nil => cases hp
  | @cons position id b l added portions hadded hcut ih =>
    obtain ⟨hid, hnodup⟩ := List.nodup_cons.1 hnodup
    cases i with
    | zero =>
      obtain rfl := Option.some.inj hp
      rw [place, startOf, if_pos rfl, beginning_zero]
    | succ i =>
      have hmem : p.id ∈ l.map (·.1) := hcut.map_id ▸ List.mem_map_of_mem (List.mem_of_getElem? hp)
      have hne : id ≠ p.id := fun heq => hid (heq ▸ hmem)
      rw [place, startOf, if_neg hne, ih hnodup hp, beginning_succ, Portion.code, List.length_append,
        List.length_append, List.length_map, length_resolveFrom hadded]

end Cut

/-! ### The resolved exit of a block -/

theorem exitCode_pick (following : Option BlockId) (first second : BlockId) {others : List BlockId} (h : others ≠ []) :
    ∃ picked default, first :: second :: others = picked ++ [default] ∧
      exitCode following (.branch first second others) =
        .switch (picked.map .block) :: jumpUnless following default := by
  cases others with
  | nil => exact absurd rfl h
  | cons other others =>
    refine ⟨first :: second :: (other :: others).dropLast, (other :: others).getLast h, ?_, rfl⟩
    rw [List.cons_append, List.cons_append, List.dropLast_append_getLast]

section Resolved

variable {placed : List Placed} (hland : ∀ target ∈ exit.targets, ∀ position offset,
  Linear.offset position (startOf target placed) = .ok offset → LandsOn portions position target offset)

include hland

theorem goesOn_of_resolveFrom {target : BlockId} (htarget : target ∈ exit.targets) {code : List Operation}
    (h : resolveFrom placed position (jumpUnless following target) = .ok code) :
    GoesOn portions following position target code := by
  unfold jumpUnless at h
  split at h
  · rename_i hfollowing
    cases h
    exact .falls hfollowing
  · rename_i hnot
    obtain ⟨op, code, rfl, hop, hcode⟩ := resolveFrom_cons_eq_ok h
    obtain ⟨offset, hoffset, hop⟩ := except_bind_eq_ok.1 hop
    cases hop
    cases hcode
    exact .jumps hnot (hland target htarget position offset hoffset)

theorem closes_of_resolveFrom (hend : (placed.flatMap (·.2)).length = (codeOf portions).length)
    (h : resolveFrom placed position (exitCode following exit) = .ok added) :
    Closes portions following position exit added := by
  cases exit with
  | opened =>
    cases following with
    | none =>
      cases h
      exact .last rfl
    | some id =>
      obtain ⟨op, code, rfl, hop, hcode⟩ := resolveFrom_cons_eq_ok h
      obtain ⟨offset, hoffset, hop⟩ := except_bind_eq_ok.1 hop
      cases hop
      cases hcode
      exact .finish (by simp) (hend ▸ offset_eq_ok hoffset)
  | next target => exact .next (goesOn_of_resolveFrom hland (List.mem_singleton_self _) h)
  | branch first second others =>
    cases others with
    | nil =>
      obtain ⟨op, code, rfl, hop, hcode⟩ := resolveFrom_cons_eq_ok h
      obtain ⟨offset, hoffset, hop⟩ := except_bind_eq_ok.1 hop
      cases hop
      exact .either (hland second (by simp [Exit.targets]) position offset hoffset)
        (goesOn_of_resolveFrom hland (by simp [Exit.targets]) hcode)
    | cons other others =>
      obtain ⟨picked, default, hsplit, hexit⟩ := exitCode_pick following first second (List.cons_ne_nil other others)
      have hpicked : ∀ target ∈ picked, target ∈ first :: second :: other :: others :=
        fun target h => hsplit ▸ List.mem_append_left _ h
      have hdefault : default ∈ first :: second :: other :: others := by simp [hsplit]
      rw [hexit] at h
      obtain ⟨op, code, rfl, hop, hcode⟩ := resolveFrom_cons_eq_ok h
      obtain ⟨offsets, hoffsets, hop⟩ := except_bind_eq_ok.1 hop
      cases hop
      have hall := forall₂_of_mapM hoffsets
      rw [List.forall₂_map_left_iff] at hall
      have hlands := ((List.forall₂_and_left _ _).2 ⟨hpicked, hall⟩).imp fun target offset h =>
        hland target h.1 position offset h.2
      exact .pick (List.cons_ne_nil other others) hsplit hlands (goesOn_of_resolveFrom hland hdefault hcode)
  | terminal =>
    cases h
    exact .terminal

end Resolved

/-! ### Other ways to cut -/

theorem GoesOn.length_eq {portions' : List Portion} {position' : Nat} {target : BlockId} {code code' : List Operation}
    (h : GoesOn portions following position target code) (h' : GoesOn portions' following position' target code') :
    code.length = code'.length := by
  cases h with
  | falls hfollowing =>
    cases h' with
    | falls => rfl
    | jumps hnot => exact absurd hfollowing hnot
  | jumps hnot =>
    cases h' with
    | falls hfollowing => exact absurd hfollowing hnot
    | jumps => rfl

/-- How many jumps are added does not depend on where they lead. -/
theorem Closes.length_eq {portions' : List Portion} {position' : Nat} {added' : List Operation}
    (h : Closes portions following position exit added) (h' : Closes portions' following position' exit added') :
    added.length = added'.length := by
  cases h with
  | last hnone =>
    cases h' with
    | last => rfl
    | finish hsome => exact absurd hnone hsome
  | finish hsome =>
    cases h' with
    | last hnone => exact absurd hnone hsome
    | finish => rfl
  | next hgoes =>
    cases h' with
    | next hgoes' => exact hgoes.length_eq hgoes'
  | either _ hgoes =>
    cases h' with
    | either _ hgoes' => rw [List.length_cons, List.length_cons, hgoes.length_eq hgoes']
    | pick hothers => exact absurd rfl hothers
  | pick hothers hsplit _ hgoes =>
    cases h' with
    | either => exact absurd rfl hothers
    | pick _ hsplit' _ hgoes' =>
      obtain ⟨-, hdefault⟩ := List.append_inj' (hsplit.symm.trans hsplit') rfl
      cases hdefault
      rw [List.length_cons, List.length_cons, hgoes.length_eq hgoes']
  | terminal =>
    cases h' with
    | terminal => rfl

/-- Code is cut in one way only into portions of the same lengths. -/
theorem eq_of_codeOf_eq {portions' : List Portion} (hlength : portions.length = portions'.length)
    (halike : ∀ (i : Nat) (p p' : Portion), portions[i]? = some p → portions'[i]? = some p' →
      p.id = p'.id ∧ p.own = p'.own ∧ p.added.length = p'.added.length)
    (hcode : codeOf portions = codeOf portions') : portions = portions' := by
  induction portions generalizing portions' with
  | nil => exact (List.eq_nil_of_length_eq_zero hlength.symm).symm
  | cons p portions ih =>
    cases portions' with
    | nil => cases hlength
    | cons p' portions' =>
      obtain ⟨hid, hown, hadded⟩ := halike 0 p p' rfl rfl
      rw [codeOf_cons, codeOf_cons] at hcode
      obtain ⟨hfirst, hrest⟩ := List.append_inj hcode (by simp [Portion.code, hown, hadded])
      rw [Portion.code, Portion.code, hown, List.append_cancel_left_eq] at hfirst
      obtain rfl := ih (Nat.succ.inj hlength) (fun i => halike (i + 1)) hrest
      obtain rfl : p = p' := Portion.ext hid hown hfirst
      rfl

/-! ### What is added -/

theorem GoesOn.shape {target : BlockId} {code : List Operation} (h : GoesOn portions following position target code) :
    code.length ≤ 1 ∧ ∀ op ∈ code, ∃ offset, op = .jump offset := by
  cases h with
  | falls => simp
  | jumps => simp

/-- At most one jump is added that looks at a value, and behind it at most one that does not. -/
theorem Closes.shape (h : Closes portions following position exit added) :
    ∃ choice onward, added = choice ++ onward ∧ choice.length ≤ 1 ∧ onward.length ≤ 1 ∧
      (∀ op ∈ choice, (∃ offset, op = .jumpIfFalse offset) ∨ ∃ offsets, op = .switch offsets) ∧
      ∀ op ∈ onward, ∃ offset, op = .jump offset := by
  cases h with
  | last | terminal => exact ⟨[], [], by simp⟩
  | @finish offset => exact ⟨[], [.jump offset], by simp⟩
  | next hgoes => exact ⟨[], added, rfl, by simp, hgoes.shape.1, by simp, hgoes.shape.2⟩
  | @either _ _ offset code _ hgoes =>
    exact ⟨[.jumpIfFalse offset], code, rfl, by simp, hgoes.shape.1, by simp, hgoes.shape.2⟩
  | @pick _ _ _ _ _ offsets code _ _ _ hgoes =>
    exact ⟨[.switch offsets], code, rfl, by simp, hgoes.shape.1, by simp, hgoes.shape.2⟩

/-- An added jump leads to a target of the exit, and if it looks at no value, then not to the block placed next. -/
def AlongEdge (portions : List Portion) (following : Option BlockId) (exit : Exit) (position : Nat) (op : Operation)
    (offset : Int32) : Prop :=
  ∃ target ∈ exit.targets, LandsOn portions position target offset ∧ (op = .jump offset → following ≠ some target)

theorem GoesOn.alongEdge {target : BlockId} {code : List Operation}
    (h : GoesOn portions following position target code) (htarget : target ∈ exit.targets) {j : Nat} {op : Operation}
    (hop : code[j]? = some op) {offset : Int32} (hoffset : offset ∈ op.offsets) :
    AlongEdge portions following exit (position + j) op offset := by
  cases h with
  | falls => cases hop
  | jumps hnot hlands =>
    obtain ⟨rfl, rfl⟩ : j = 0 ∧ _ = op := by simpa using List.getElem?_singleton.symm.trans hop
    obtain rfl := List.mem_singleton.1 hoffset
    exact ⟨target, htarget, hlands, fun _ => hnot⟩

/-- The same if another jump that leads along edges stands in front. -/
theorem GoesOn.alongEdge_cons {target : BlockId} {code : List Operation}
    (h : GoesOn portions following (position + 1) target code) (htarget : target ∈ exit.targets) {first : Operation}
    (hfirst : ∀ offset ∈ first.offsets, AlongEdge portions following exit position first offset) {j : Nat}
    {op : Operation} (hop : (first :: code)[j]? = some op) {offset : Int32} (hoffset : offset ∈ op.offsets) :
    AlongEdge portions following exit (position + j) op offset := by
  cases j with
  | zero =>
    obtain rfl := Option.some.inj hop
    exact hfirst offset hoffset
  | succ j =>
    have hposition : position + (j + 1) = position + 1 + j := by omega
    rw [hposition]
    exact h.alongEdge htarget hop hoffset

/-- An added jump leads along an edge, or from an open block to the end of the code. -/
theorem Closes.alongEdge_or (h : Closes portions following position exit added) {j : Nat} {op : Operation}
    (hop : added[j]? = some op) {offset : Int32} (hoffset : offset ∈ op.offsets) :
    AlongEdge portions following exit (position + j) op offset ∨
      exit = .opened ∧ op = .jump offset ∧ position + j + offset.toInt = (codeOf portions).length := by
  cases h with
  | last | terminal => cases hop
  | finish _ hend =>
    obtain ⟨rfl, rfl⟩ : j = 0 ∧ _ = op := by simpa using List.getElem?_singleton.symm.trans hop
    obtain rfl := List.mem_singleton.1 hoffset
    exact .inr ⟨rfl, rfl, hend⟩
  | next hgoes => exact .inl (hgoes.alongEdge (List.mem_singleton_self _) hop hoffset)
  | @either first second _ _ hlands hgoes =>
    refine .inl (hgoes.alongEdge_cons (by simp [Exit.targets]) (fun o ho => ?_) hop hoffset)
    obtain rfl := List.mem_singleton.1 ho
    exact ⟨second, by simp [Exit.targets], hlands, by simp⟩
  | @pick first second default others picked _ _ _ hsplit hlands hgoes =>
    have htargets : (Exit.branch first second others).targets = picked ++ [default] := hsplit
    refine .inl (hgoes.alongEdge_cons (by simp [htargets]) (fun o ho => ?_) hop hoffset)
    obtain ⟨target, htarget, hlands⟩ := exists_of_forall₂ hlands ho
    exact ⟨target, htargets ▸ List.mem_append_left _ htarget, hlands, by simp⟩

end Linear

/-! ### The code of a graph -/

variable {g : BlockGraph} {entry : BlockId} {l : List (BlockId × Block)} {portions portions' : List Portion}

theorem Arranges.eq_of_codeOf_eq (h : g.Arranges entry portions) (h' : g.Arranges entry portions')
    (hcode : codeOf portions = codeOf portions') : portions = portions' := by
  have hids : portions.map (·.id) = portions'.map (·.id) := Except.ok.inj (h.order.symm.trans h'.order)
  -- the portions of a block have the same operations, and as many jumps as its exit and the block placed next ask for
  refine Linear.eq_of_codeOf_eq (by simpa using congrArg List.length hids) (fun i p p' hp hp' => ?_) hcode
  have hnext : ∀ k : Nat, portions[k]?.map (·.id) = portions'[k]?.map (·.id) := by
    intro k
    rw [← List.getElem?_map, ← List.getElem?_map, hids]
  have hid : p.id = p'.id := by simpa [hp, hp'] using hnext i
  obtain ⟨b, hb, hown, hcloses⟩ := h.block i p hp
  obtain ⟨b', hb', hown', hcloses'⟩ := h'.block i p' hp'
  obtain rfl : b = b' := Option.some.inj (hb.symm.trans (hid ▸ hb'))
  rw [hnext] at hcloses
  exact ⟨hid, hown.trans hown'.symm, hcloses.length_eq hcloses'⟩

theorem arranges_of_cut (htrace : g.trace entry = .ok l) (hcut : Cut (place l) 0 l portions) :
    g.Arranges entry portions := by
  obtain ⟨hmap, -⟩ := trace_eq htrace
  have hnodup : (l.map (·.1)).Nodup := hmap ▸ order_nodup g entry
  refine ⟨?_, fun i p hp => ?_⟩
  · rw [reachable, htrace, hcut.map_id]
    rfl
  · obtain ⟨b, hmem, hown, hresolve⟩ := hcut.getElem? hp
    obtain ⟨hreach, hb⟩ := mem_trace htrace hmem
    rw [Nat.zero_add] at hresolve
    refine ⟨b, hb, hown, ?_⟩
    refine closes_of_resolveFrom (fun target htarget position offset hoffset => ?_) hcut.length_codeOf hresolve
    -- the target is listed too, so it has a portion
    have hlisted : target ∈ portions.map (·.id) := by
      rw [hcut.map_id, hmap]
      exact mem_order_iff.2 (hreach.tail ((mem_successors_iff hb).2 htarget))
    obtain ⟨p', hp', rfl⟩ := List.mem_map.1 hlisted
    obtain ⟨k, hk⟩ := List.getElem?_of_mem hp'
    exact ⟨k, p', hk, rfl, hcut.startOf_eq hnodup hk ▸ offset_eq_ok hoffset⟩

/-- The code of a graph has the operations of every block that control can reach, each block once and in the order of
the search, and these can be told in one way only from what was added.  Behind the operations of a block stands at most
one jump that looks at a value, and then at most one that does not.  The position of an added jump and one of its
offsets add up to where the code of a block begins that an edge leads to, or else, behind an open block, to the end of
the code.  No jump that looks at no value leads to the block that is placed next. -/
theorem linearize_keeps_blocks {ops : List Operation} (h : g.linearize entry = .ok ops) :
    ∃ portions, g.Arranges entry portions ∧ codeOf portions = ops ∧
      (∀ portions', g.Arranges entry portions' → codeOf portions' = ops → portions' = portions) ∧
      (portions.map (·.id)).Nodup ∧ g.flatten entry = .ok (portions.flatMap (·.own)) ∧
      ∀ i p b, portions[i]? = some p → g.block? p.id = some b →
        (∃ choice onward, p.added = choice ++ onward ∧ choice.length ≤ 1 ∧ onward.length ≤ 1 ∧
          (∀ op ∈ choice, (∃ offset, op = .jumpIfFalse offset) ∨ ∃ offsets, op = .switch offsets) ∧
          ∀ op ∈ onward, ∃ offset, op = .jump offset) ∧
        ∀ j op, p.added[j]? = some op → ops[beginning portions i + p.own.length + j]? = some op ∧
          ∀ offset ∈ op.offsets,
            AlongEdge portions (portions[i + 1]?.map (·.id)) b.exit (beginning portions i + p.own.length + j) op
                offset ∨
              b.exit = .opened ∧ beginning portions i + p.own.length + j + offset.toInt = ops.length := by
  obtain ⟨l, htrace, hres⟩ := except_bind_eq_ok.1 h
  obtain ⟨portions, hcut, rfl⟩ := exists_cut hres
  have harranges := arranges_of_cut htrace hcut
  refine ⟨portions, harranges, rfl, fun portions' h' hcode => h'.eq_of_codeOf_eq harranges hcode, ?_, ?_,
    fun i p b hp hb => ?_⟩
  · rw [hcut.map_id, (trace_eq htrace).1]
    exact order_nodup g entry
  · rw [flatten, htrace, hcut.flatMap_own]
    rfl
  · obtain ⟨b', hb', -, hcloses⟩ := harranges.block i p hp
    obtain rfl := Option.some.inj (hb.symm.trans hb')
    refine ⟨hcloses.shape, fun j op hop => ⟨?_, fun offset hoffset => ?_⟩⟩
    · rw [Nat.add_assoc]
      refine getElem?_codeOf hp ?_
      rw [Portion.code, List.getElem?_append_right (Nat.le_add_right _ _), Nat.add_sub_cancel_left]
      exact hop
    · exact (hcloses.alongEdge_or hop hoffset).imp_right fun h => ⟨h.1, h.2.2⟩

/-- A choice of three blocks.  The first of them has no operations and goes on at the second, which is placed next and
left open. -/
def choosing : BlockGraph :=
  ⟨#[⟨[.int 1], .branch ⟨1⟩ ⟨2⟩ [⟨3⟩]⟩, ⟨[], .next ⟨2⟩⟩, ⟨[.int 7], .opened⟩, ⟨[.err], .terminal⟩]⟩

theorem linearize_choosing :
    choosing.linearize ⟨0⟩ = .ok [.int 1, .switch [2, 2], .jump 3, .int 7, .jump 2, .err] := by
  cbv

/-- Its portions: two of them begin at position 3, as the first of these has no code. -/
def choosingPortions : List Portion :=
  [⟨⟨0⟩, [.int 1], [.switch [2, 2], .jump 3]⟩, ⟨⟨1⟩, [], []⟩, ⟨⟨2⟩, [.int 7], [.jump 2]⟩, ⟨⟨3⟩, [.err], []⟩]

theorem arranges_choosing : choosing.Arranges ⟨0⟩ choosingPortions := by
  refine ⟨by cbv, fun i p hp => ?_⟩
  have hfirst : LandsOn choosingPortions 1 ⟨1⟩ 2 := ⟨1, _, rfl, rfl, by decide⟩
  have hsecond : LandsOn choosingPortions 1 ⟨2⟩ 2 := ⟨2, _, rfl, rfl, by decide⟩
  have hdefault : LandsOn choosingPortions 2 ⟨3⟩ 3 := ⟨3, _, rfl, rfl, by decide⟩
  rcases i with _ | _ | _ | _ | i
  · obtain rfl := Option.some.inj hp
    exact ⟨_, rfl, rfl, .pick (by simp) rfl (.cons hfirst (.cons hsecond .nil)) (.jumps (by decide) hdefault)⟩
  · obtain rfl := Option.some.inj hp
    exact ⟨_, rfl, rfl, .next (.falls rfl)⟩
  · obtain rfl := Option.some.inj hp
    exact ⟨_, rfl, rfl, .finish (by decide) (by decide)⟩
  · obtain rfl := Option.some.inj hp
    exact ⟨_, rfl, rfl, .terminal⟩
  · cases hp

/-- The portions are these and no others. -/
theorem linearize_keeps_blocks_choosing :
    choosing.linearize ⟨0⟩ = .ok [.int 1, .switch [2, 2], .jump 3, .int 7, .jump 2, .err] ∧
      choosing.flatten ⟨0⟩ = .ok (choosingPortions.flatMap (·.own)) ∧
      ∀ portions, choosing.Arranges ⟨0⟩ portions →
        codeOf portions = [.int 1, .switch [2, 2], .jump 3, .int 7, .jump 2, .err] → portions = choosingPortions := by
  obtain ⟨portions, -, -, hunique, -, hflatten, -⟩ := linearize_keeps_blocks linearize_choosing
  obtain rfl := hunique choosingPortions arranges_choosing rfl
  exact ⟨linearize_choosing, hflatten, hunique⟩

end ScratchMachine.BlockGraph
