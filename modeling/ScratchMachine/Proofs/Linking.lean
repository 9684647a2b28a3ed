import ScratchMachine.BlockGraph
import ScratchMachine.Proofs.Fallible

/-!
# Linking, step by step

What each operation on a graph does to it, whether it succeeds or is refused.  A graph only grows: its blocks keep
their operations, and a block that was given an exit keeps that.  What links fragments changes no block but their
ends.

* `BlockGraph.Extends`: a graph that another grew out of.
* `BlockGraph.applyOp_ensures`: what the operation node of a tree becomes.
-/

namespace ScratchMachine.BlockGraph

open Fallible

/-! ### Growing graphs -/

/-- A graph has all blocks of an earlier one, with their operations and with the exits that they had been given. -/
def Extends (h g : BlockGraph) : Prop :=
  ∀ id b, h.block? id = some b → ∃ b', g.block? id = some b' ∧ b'.ops = b.ops ∧ (b.exit ≠ .opened → b'.exit = b.exit)

/-- The blocks with numbers below `n` are the same in both graphs. -/
def Keeps (n : Nat) (h g : BlockGraph) : Prop := ∀ id : BlockId, id.index < n → g.block? id = h.block? id

/-- A graph grew out of an earlier one by changes to blocks from `n` on. -/
structure Grows (n : Nat) (h g : BlockGraph) : Prop where
  extends' : h.Extends g
  keeps : Keeps n h g

theorem Extends.refl (g : BlockGraph) : g.Extends g := fun _ b hb => ⟨b, hb, rfl, fun _ => rfl⟩

theorem Extends.trans {g h k : BlockGraph} (hgh : g.Extends h) (hhk : h.Extends k) : g.Extends k := by
  intro id b hb
  obtain ⟨b', hb', hops, hexit⟩ := hgh id b hb
  obtain ⟨b'', hb'', hops', hexit'⟩ := hhk id b' hb'
  refine ⟨b'', hb'', hops'.trans hops, fun hopen => ?_⟩
  have heq := hexit hopen
  rw [hexit' (by rwa [heq]), heq]

theorem block?_isSome {g : BlockGraph} {id : BlockId} : (g.block? id).isSome ↔ id.index < g.size := by
  rw [block?, size, Option.isSome_iff_ne_none, Ne, Array.getElem?_eq_none_iff]
  omega

theorem index_lt_size {g : BlockGraph} {id : BlockId} {b : Block} (h : g.block? id = some b) : id.index < g.size :=
  block?_isSome.1 (by rw [h]; rfl)

theorem Extends.size_le {h g : BlockGraph} (hext : h.Extends g) : h.size ≤ g.size := by
  rcases Nat.eq_zero_or_pos h.size with hzero | hpos
  · omega
  · obtain ⟨b, hb⟩ := Option.isSome_iff_exists.1 (block?_isSome.2 (show (BlockId.mk (h.size - 1)).index < h.size by
      show h.size - 1 < h.size
      omega))
    obtain ⟨b', hb', -⟩ := hext _ b hb
    have hlt := index_lt_size hb'
    dsimp only at hlt
    omega

/-- If only blocks of the earlier graph have changed, then none has been added. -/
theorem size_eq_of_other {g k : BlockGraph} {ends : BlockId → Prop} (hext : g.Extends k)
    (hother : ∀ id, ¬ ends id → k.block? id = g.block? id) (hends : ∀ id, ends id → id.index < g.size) : k.size = g.size := by
  refine Nat.le_antisymm (Nat.le_of_not_lt fun hlt => ?_) hext.size_le
  have hnew : k.block? ⟨g.size⟩ = g.block? ⟨g.size⟩ := hother _ fun hend => Nat.lt_irrefl _ (hends _ hend)
  have hsome : (g.block? ⟨g.size⟩).isSome := hnew ▸ block?_isSome.2 hlt
  exact Nat.lt_irrefl _ (block?_isSome.1 hsome)

theorem Grows.refl (n : Nat) (g : BlockGraph) : Grows n g g := ⟨.refl g, fun _ _ => rfl⟩

theorem Grows.trans {n : Nat} {g h k : BlockGraph} (hgh : Grows n g h) (hhk : Grows n h k) : Grows n g k :=
  ⟨hgh.extends'.trans hhk.extends', fun id hid => (hhk.keeps id hid).trans (hgh.keeps id hid)⟩

theorem Grows.mono {n n' : Nat} {h g : BlockGraph} (hgrows : Grows n h g) (hle : n' ≤ n) : Grows n' h g :=
  ⟨hgrows.extends', fun id hid => hgrows.keeps id (Nat.lt_of_lt_of_le hid hle)⟩

/-! ### Single blocks -/

theorem block?_push (g : BlockGraph) (b : Block) (id : BlockId) :
    (BlockGraph.mk (g.blocks.push b)).block? id = if id.index = g.size then some b else g.block? id := by
  rw [block?, block?, size, Array.getElem?_push]

theorem grows_push (g : BlockGraph) (b : Block) : Grows g.size g ⟨g.blocks.push b⟩ := by
  have hold : ∀ id : BlockId, id.index < g.size → (BlockGraph.mk (g.blocks.push b)).block? id = g.block? id := by
    intro id hid
    rw [block?_push, if_neg (by omega)]
  refine ⟨fun id b' hb' => ⟨b', ?_, rfl, fun _ => rfl⟩, hold⟩
  rw [hold id (index_lt_size hb')]
  exact hb'

/-- The graph with another exit for one block. -/
def withExit (g : BlockGraph) (id : BlockId) (exit : Exit) : BlockGraph :=
  { g with blocks := g.blocks.modify id.index fun b => { b with exit } }

theorem block?_withExit_of_ne {g : BlockGraph} {id id' : BlockId} (exit : Exit) (h : id' ≠ id) :
    (g.withExit id exit).block? id' = g.block? id' := by
  have hindex : id.index ≠ id'.index := by
    intro heq
    exact h (by cases id; cases id'; simp_all)
  rw [block?, block?, withExit, Array.getElem?_modify, if_neg hindex]

theorem block?_withExit {g : BlockGraph} {id : BlockId} {b : Block} (exit : Exit) (h : g.block? id = some b) :
    (g.withExit id exit).block? id = some { b with exit } := by
  rw [block?] at h
  rw [block?, withExit, Array.getElem?_modify, if_pos rfl, h]
  rfl

/-- Giving an open block its exit changes that block only. -/
theorem grows_withExit {n : Nat} {g : BlockGraph} {id : BlockId} {b : Block} (exit : Exit)
    (hb : g.block? id = some b) (hopen : b.exit = .opened) (hn : n ≤ id.index) :
    Grows n g (g.withExit id exit) := by
  refine ⟨fun id' b' hb' => ?_, fun id' hid' => ?_⟩
  · by_cases heq : id' = id
    · subst heq
      obtain rfl := Option.some.inj (hb'.symm.trans hb)
      exact ⟨_, block?_withExit exit hb, rfl, fun hne => absurd hopen hne⟩
    · exact ⟨b', by rwa [block?_withExit_of_ne exit heq], rfl, fun _ => rfl⟩
  · refine block?_withExit_of_ne exit ?_
    rintro rfl
    omega

/-! ### What stays true of a growing graph -/

/-- A block has been given an exit. -/
def Closed (g : BlockGraph) (id : BlockId) (exit : Exit) : Prop :=
  exit ≠ .opened ∧ ∃ b, g.block? id = some b ∧ b.exit = exit

theorem Closed.mono {h g : BlockGraph} {id : BlockId} {exit : Exit} (hclosed : h.Closed id exit)
    (hext : h.Extends g) : g.Closed id exit := by
  obtain ⟨hne, b, hb, rfl⟩ := hclosed
  obtain ⟨b', hb', -, hexit⟩ := hext id b hb
  exact ⟨hne, b', hb', hexit hne⟩

/-- A block has these operations, and if its end cannot be reached it is marked so. -/
def Holds (g : BlockGraph) (id : BlockId) (ops : List Operation) (terminal : Bool) : Prop :=
  ∃ b, g.block? id = some b ∧ b.ops = ops ∧ (terminal = true → b.exit = .terminal)

theorem Holds.mono {h g : BlockGraph} {id : BlockId} {ops : List Operation} {terminal : Bool}
    (hholds : h.Holds id ops terminal) (hext : h.Extends g) : g.Holds id ops terminal := by
  obtain ⟨b, hb, hops, hterminal⟩ := hholds
  obtain ⟨b', hb', hops', hexit⟩ := hext id b hb
  refine ⟨b', hb', hops'.trans hops, fun ht => ?_⟩
  have heq := hterminal ht
  rw [hexit (by rw [heq]; simp), heq]

/-- A block is there and open. -/
def IsOpen (g : BlockGraph) (id : BlockId) : Prop := ∃ b, g.block? id = some b ∧ b.exit = .opened

theorem IsOpen.congr {h g : BlockGraph} {id : BlockId} (hopen : h.IsOpen id) (heq : g.block? id = h.block? id) :
    g.IsOpen id := by
  obtain ⟨b, hb, hexit⟩ := hopen
  exact ⟨b, heq.trans hb, hexit⟩

/-- The ends of some fragments are open, and no two of them are the same block. -/
structure EndsOpen (g : BlockGraph) (fragments : List Fragment) : Prop where
  isOpen : ∀ f ∈ fragments, ∀ x, f.exit = some x → g.IsOpen x
  distinct : fragments.Pairwise fun f f' => ∀ x, f.exit = some x → f'.exit ≠ some x

/-! ### What each operation does -/

variable {n : Nat} {g : BlockGraph}

theorem addBlock_ensures (ops : List Operation) (failed : BlockGraph → Prop) :
    Ensures (addBlock ops) g (fun id g' => id = ⟨g.size⟩ ∧ g' = ⟨g.blocks.push ⟨ops, .opened⟩⟩) failed :=
  ensures_bind (ensures_get (ensures_bind (ensures_modify (ensures_pure ⟨rfl, rfl⟩))))

theorem run_close (id : BlockId) (exit : Exit) (g : BlockGraph) :
    (close id exit).run.run g = match g.block? id with
      | none => (.error (.unknownBlock id), g)
      | some b => if b.exit = .opened then (.ok (), g.withExit id exit) else (.error (.alreadyLinked id b.exit), g) := by
  show (liftM (g.block id) >>= fun b => if b.exit = .opened then modify (·.withExit id exit)
    else throw (.alreadyLinked id b.exit) : Linking Unit).run.run g = _
  rw [block]
  cases g.block? id with
  | none => rfl
  | some b =>
    show (if b.exit = .opened then modify (·.withExit id exit)
      else throw (.alreadyLinked id b.exit) : Linking Unit).run.run g = _
    dsimp only
    by_cases hopen : b.exit = .opened
    · rw [if_pos hopen, if_pos hopen]
      rfl
    · rw [if_neg hopen, if_neg hopen]
      rfl

theorem close_ensures {id : BlockId} (exit : Exit) (hn : n ≤ id.index) (hexit : exit ≠ .opened) :
    Ensures (close id exit) g
      (fun _ g' => Grows n g g' ∧ g'.Closed id exit ∧ ∀ id', id' ≠ id → g'.block? id' = g.block? id')
      fun g' => g' = g := by
  unfold Ensures
  rw [run_close]
  cases hb : g.block? id with
  | none => exact rfl
  | some b =>
    dsimp only
    by_cases hopen : b.exit = .opened
    · rw [if_pos hopen]
      exact ⟨grows_withExit exit hb hopen hn, ⟨hexit, _, block?_withExit exit hb, rfl⟩,
        fun id' hid' => block?_withExit_of_ne exit hid'⟩
    · rw [if_neg hopen]

/-- Control goes from the end of a fragment to a block. -/
def Linked (g : BlockGraph) (last : Option BlockId) (target : BlockId) : Prop :=
  ∃ x, last = some x ∧ g.Closed x (.next target)

theorem Linked.mono {h : BlockGraph} {last : Option BlockId} {target : BlockId} (hlinked : h.Linked last target)
    (hext : h.Extends g) : g.Linked last target := by
  obtain ⟨x, hx, hclosed⟩ := hlinked
  exact ⟨x, hx, hclosed.mono hext⟩

theorem link_ensures {source : BlockId} (target : BlockId) (hn : n ≤ source.index) :
    Ensures (link source target) g
      (fun _ g' => Grows n g g' ∧ g'.Linked (some source) target ∧ ∀ id, id ≠ source → g'.block? id = g.block? id)
      fun g' => g' = g := by
  refine (close_ensures (.next target) hn (by simp)).imp (fun _ g' h => ?_) fun _ h => h
  obtain ⟨hgrows, hclosed, hother⟩ := h
  exact ⟨hgrows, ⟨source, rfl, hclosed⟩, hother⟩

theorem follow_ensures {context : String} {last : Option BlockId} {target : BlockId}
    (hn : ∀ x, last = some x → n ≤ x.index) :
    Ensures (follow context last target) g
      (fun _ g' => Grows n g g' ∧ g'.Linked last target ∧ ∀ id, last ≠ some id → g'.block? id = g.block? id)
      fun g' => g' = g := by
  cases last with
  | none => exact ensures_throw rfl
  | some x =>
    refine (link_ensures target (hn x rfl)).imp (fun _ g' h => ?_) fun _ h => h
    obtain ⟨hgrows, hlinked, hother⟩ := h
    exact ⟨hgrows, hlinked, fun id hid => hother id fun heq => hid (by rw [heq])⟩

theorem branch_ensures {source first second : BlockId} (hn : n ≤ source.index) :
    Ensures (branch source [first, second]) g
      (fun _ g' => Grows n g g' ∧ g'.Closed source (.branch first second []) ∧
        ∀ id, id ≠ source → g'.block? id = g.block? id)
      fun g' => g' = g :=
  close_ensures _ hn (by simp)

/-- Control goes through fragments in order, from the end `last` to the end `last'`. -/
def Chained (g : BlockGraph) : Option BlockId → List Fragment → Option BlockId → Prop
  | last, [], last' => last' = last
  | last, next :: rest, last' => g.Linked last next.entry ∧ g.Chained next.exit rest last'

theorem Chained.mono {h : BlockGraph} {last last' : Option BlockId} {fragments : List Fragment}
    (hchained : h.Chained last fragments last') (hext : h.Extends g) : g.Chained last fragments last' := by
  induction fragments generalizing last with
  | nil => exact hchained
  | cons next rest ih => exact ⟨hchained.1.mono hext, ih hchained.2⟩

theorem Chained.last_of {last last' : Option BlockId} {fragments : List Fragment}
    (hchained : g.Chained last fragments last') : last' = last ∨ ∃ f ∈ fragments, last' = f.exit := by
  induction fragments generalizing last with
  | nil => exact .inl hchained
  | cons next rest ih =>
    rcases ih hchained.2 with heq | ⟨f, hf, heq⟩
    · exact .inr ⟨next, List.mem_cons_self .., heq⟩
    · exact .inr ⟨f, List.mem_cons_of_mem _ hf, heq⟩

theorem chain_ensures {last : Option BlockId} {fragments : List Fragment} (hlast : ∀ x, last = some x → n ≤ x.index)
    (hn : ∀ f ∈ fragments, ∀ x, f.exit = some x → n ≤ x.index) :
    Ensures (chain last fragments) g
      (fun last' g' => Grows n g g' ∧ g'.Chained last fragments last' ∧
        ∀ id, last ≠ some id → (∀ f ∈ fragments, f.exit ≠ some id) → g'.block? id = g.block? id)
      fun g' => Grows n g g' := by
  induction fragments generalizing last g with
  | nil => exact ensures_pure ⟨.refl n g, rfl, fun _ _ _ => rfl⟩
  | cons next rest ih =>
    refine ensures_bind ((follow_ensures hlast).imp (fun _ g' h => ?_) fun g' h => h ▸ .refl n g)
    obtain ⟨hgrows, hlinked, hother⟩ := h
    have hrest := ih (g := g') (hn next (List.mem_cons_self ..)) fun f hf => hn f (List.mem_cons_of_mem _ hf)
    refine hrest.imp (fun last' g'' h => ?_) fun g'' h => hgrows.trans h
    obtain ⟨hgrows', hchained, hother'⟩ := h
    refine ⟨hgrows.trans hgrows', ⟨hlinked.mono hgrows'.extends', hchained⟩, fun id hid hexits => ?_⟩
    rw [hother' id (hexits next (List.mem_cons_self ..)) fun f hf => hexits f (List.mem_cons_of_mem _ hf)]
    exact hother id hid

/-- Fragments in order lead to a block; control enters at `entry`. -/
def LeadsTo (g : BlockGraph) (entry : BlockId) : List Fragment → BlockId → Prop
  | [], own => entry = own
  | first :: rest, own => entry = first.entry ∧ ∃ last, g.Chained first.exit rest last ∧ g.Linked last own

theorem LeadsTo.mono {h : BlockGraph} {entry own : BlockId} {fragments : List Fragment}
    (hleads : h.LeadsTo entry fragments own) (hext : h.Extends g) : g.LeadsTo entry fragments own := by
  cases fragments with
  | nil => exact hleads
  | cons first rest =>
    obtain ⟨hentry, last, hchained, hlinked⟩ := hleads
    exact ⟨hentry, last, hchained.mono hext, hlinked.mono hext⟩

/-- Past the first fragment, the others lead to the same block. -/
theorem LeadsTo.tail {first : Fragment} {rest : List Fragment} {entry own : BlockId}
    (h : g.LeadsTo entry (first :: rest) own) :
    entry = first.entry ∧ ∃ entry', g.Linked first.exit entry' ∧ g.LeadsTo entry' rest own := by
  obtain ⟨hentry, last, hchained, hlinked⟩ := h
  cases rest with
  | nil =>
    obtain rfl : last = first.exit := hchained
    exact ⟨hentry, own, hlinked, rfl⟩
  | cons next rest => exact ⟨hentry, next.entry, hchained.1, rfl, last, hchained.2, hlinked⟩

/-- The block of an operation that follows fragments. -/
structure Applied (g : BlockGraph) (op : Operation) (fragments : List Fragment) (f : Fragment) (own : BlockId) :
    Prop where
  leads : g.LeadsTo f.entry fragments own
  holds : g.Holds own [op] op.isTerminal
  exit : f.exit = if op.isTerminal then none else some own

theorem Applied.mono {h : BlockGraph} {op : Operation} {fragments : List Fragment} {f : Fragment} {own : BlockId}
    (happlied : h.Applied op fragments f own) (hext : h.Extends g) : g.Applied op fragments f own :=
  ⟨happlied.leads.mono hext, happlied.holds.mono hext, happlied.exit⟩

/-- The end of applying an operation: its block is there, and the fragments have been linked to it. -/
theorem finish_ensures {op : Operation} {fragments : List Fragment} {entry : BlockId} {g₂ : BlockGraph}
    (hsize : n ≤ g.size) (hne : ∀ f ∈ fragments, f.exit ≠ some ⟨g.size⟩) (hgrows : Grows n g g₂)
    (hleads : g₂.LeadsTo entry fragments ⟨g.size⟩)
    (hkept : ∀ id, (∀ f ∈ fragments, f.exit ≠ some id) →
      g₂.block? id = (BlockGraph.mk (g.blocks.push ⟨[op], .opened⟩)).block? id) :
    Ensures (if op.isTerminal = true then do
        setExit ⟨g.size⟩ .terminal
        return ⟨entry, none⟩
      else return ⟨entry, some ⟨g.size⟩⟩ : Linking Fragment) g₂
      (fun f g' => Grows n g g' ∧ g'.Applied op fragments f ⟨g.size⟩ ∧
        (∀ x, f.exit = some x → n ≤ x.index ∧ g'.IsOpen x) ∧
        ∀ id, id ≠ ⟨g.size⟩ → (∀ f ∈ fragments, f.exit ≠ some id) → g'.block? id = g.block? id)
      fun g' => Grows n g g' := by
  have hown := hkept ⟨g.size⟩ hne
  rw [block?_push, if_pos rfl] at hown
  have hother : ∀ id, id ≠ ⟨g.size⟩ → (∀ f ∈ fragments, f.exit ≠ some id) → g₂.block? id = g.block? id := by
    intro id hid hends
    rw [hkept id hends, block?_push, if_neg fun heq => hid (by rw [← heq])]
  by_cases hop : op.isTerminal = true
  · rw [if_pos hop]
    refine ensures_bind (ensures_modify (ensures_pure ?_))
    have hgrows' := grows_withExit .terminal hown rfl hsize
    have hblock := block?_withExit .terminal hown
    refine ⟨hgrows.trans hgrows', ⟨hleads.mono hgrows'.extends', ⟨_, hblock, rfl, fun _ => rfl⟩, ?_⟩, fun x hx => ?_,
      fun id hid hends => (block?_withExit_of_ne .terminal hid).trans (hother id hid hends)⟩
    · rw [if_pos hop]
    · cases hx
  · rw [if_neg hop]
    refine ensures_pure ⟨hgrows, ⟨hleads, ⟨_, hown, rfl, fun h => absurd h hop⟩, ?_⟩, fun x hx => ?_, hother⟩
    · rw [if_neg hop]
    · cases hx
      exact ⟨hsize, _, hown, rfl⟩

/-- An operation gets a block of its own; of the others, only the ends of the fragments are changed. -/
theorem applyOp_ensures {op : Operation} {fragments : List Fragment} (hsize : n ≤ g.size)
    (hn : ∀ f ∈ fragments, ∀ x, f.exit = some x → n ≤ x.index ∧ x.index < g.size) :
    Ensures (applyOp op fragments) g
      (fun f g' => Grows n g g' ∧ g'.Applied op fragments f ⟨g.size⟩ ∧
        (∀ x, f.exit = some x → n ≤ x.index ∧ g'.IsOpen x) ∧
        ∀ id, id ≠ ⟨g.size⟩ → (∀ f ∈ fragments, f.exit ≠ some id) → g'.block? id = g.block? id)
      fun g' => Grows n g g' := by
  unfold applyOp
  refine ensures_bind ((addBlock_ensures [op] _).imp (fun own g₁ h => ?_) fun g' h => h)
  obtain ⟨rfl, rfl⟩ := h
  have hgrows₁ : Grows n g ⟨g.blocks.push ⟨[op], .opened⟩⟩ := (grows_push g _).mono hsize
  have hne : ∀ f ∈ fragments, f.exit ≠ some ⟨g.size⟩ := fun f hf heq => Nat.lt_irrefl _ (hn f hf _ heq).2
  cases fragments with
  | nil => exact ensures_bind (ensures_pure (finish_ensures hsize hne hgrows₁ rfl fun _ _ => rfl))
  | cons first rest =>
    have hlow : ∀ f ∈ first :: rest, ∀ x, f.exit = some x → n ≤ x.index := fun f hf x hx => (hn f hf x hx).1
    refine ensures_bind ((chain_ensures (hlow first (List.mem_cons_self ..))
      fun f hf => hlow f (List.mem_cons_of_mem _ hf)).imp (fun last g₂ h => ?_) fun g' h => hgrows₁.trans h)
    obtain ⟨hgrows₂, hchained, hother₂⟩ := h
    obtain ⟨f, hf, rfl⟩ : ∃ f ∈ first :: rest, last = f.exit := by
      rcases hchained.last_of with heq | ⟨f, hf, heq⟩
      · exact ⟨first, List.mem_cons_self .., heq⟩
      · exact ⟨f, List.mem_cons_of_mem _ hf, heq⟩
    refine ensures_bind ((follow_ensures (hlow f hf)).imp (fun _ g₃ h => ?_)
      fun g' h => h ▸ hgrows₁.trans hgrows₂)
    obtain ⟨hgrows₃, hlinked, hother₃⟩ := h
    refine ensures_bind (ensures_pure (finish_ensures hsize hne ((hgrows₁.trans hgrows₂).trans hgrows₃)
      ⟨rfl, f.exit, hchained.mono hgrows₃.extends', hlinked⟩ fun id hends => ?_))
    rw [hother₃ id (hends f hf), hother₂ id (hends first (List.mem_cons_self ..)) fun f hf =>
      hends f (List.mem_cons_of_mem _ hf)]

end ScratchMachine.BlockGraph
