import Mathlib.Logic.Relation
import ScratchMachine.Proofs.LinkingLaws

/-!
# Exits are given once

Whatever is asked of a graph, and whether it is done or refused on the way, at most one block is made, and from there on
exits are given to open blocks only.  So a graph keeps its blocks with their operations, and a block that was given an exit
keeps that through all later requests.

* `BlockGraph.Request`: what can be asked of a graph.
* `BlockGraph.Settles`: a graph in which more open blocks have been given their exits.
* `BlockGraph.advances_after`: what a request does to a graph.
* `BlockGraph.exits_assigned_once`: what any number of requests do to it.
-/

namespace ScratchMachine

open Fallible

/-- The blocks that a fragment names. -/
def Fragment.ids (f : Fragment) : List BlockId := f.entry :: f.exit.toList

namespace BlockGraph

/-! ### Requests -/

/-- A change that a graph is asked for. -/
inductive Request where
  | addBlock (ops : List Operation)
  | fragment (ops : List Operation)
  | link (source target : BlockId)
  | branch (source : BlockId) (targets : List BlockId)
  | seq (first second : Fragment)
  | applyOp (op : Operation) (children : List Fragment)
  | terminate (id : BlockId)

namespace Request

/-- Does what is asked, unless it is refused. -/
def perform : Request → Linking Unit
  | addBlock ops => discard (BlockGraph.addBlock ops)
  | fragment ops => discard (BlockGraph.fragment ops)
  | link source target => BlockGraph.link source target
  | branch source targets => BlockGraph.branch source targets
  | seq first second => discard (BlockGraph.seq first second)
  | applyOp op children => discard (BlockGraph.applyOp op children)
  | terminate id => BlockGraph.terminate id

/-- The blocks that a request names. -/
def ids : Request → List BlockId
  | addBlock _ => []
  | fragment _ => []
  | link source target => [source, target]
  | branch source targets => source :: targets
  | seq first second => first.ids ++ second.ids
  | applyOp _ children => children.flatMap Fragment.ids
  | terminate id => [id]

/-- The graph that a request leaves, also if it is refused. -/
def after (request : Request) (g : BlockGraph) : BlockGraph := (request.perform.run.run g).2

end Request

/-- The graph that is left after the first `k` of some requests. -/
def stage (g : BlockGraph) (requests : List Request) (k : Nat) : BlockGraph :=
  (requests.take k).foldl (fun g request => request.after g) g

/-- Each request names only blocks that are in the graph when it is made. -/
def Known (g : BlockGraph) (requests : List Request) : Prop :=
  ∀ k request, requests[k]? = some request → ∀ id ∈ request.ids, id.index < (g.stage requests k).size

/-- A request gives a block of the graph another exit. -/
def Reassigned (g : BlockGraph) (requests : List Request) (id : BlockId) (k : Nat) : Prop :=
  ∃ b b', (g.stage requests k).block? id = some b ∧ (g.stage requests (k + 1)).block? id = some b' ∧ b'.exit ≠ b.exit

/-! ### Giving exits to open blocks -/

variable {α β : Type} {g g' : BlockGraph}

/-- Some open blocks have been given their exits, one after the other. -/
def Settles : BlockGraph → BlockGraph → Prop :=
  Relation.ReflTransGen fun g g' => ∃ id exit, g.IsOpen id ∧ exit ≠ .opened ∧ g' = g.withExit id exit

/-- At most one block has been made, and then some open blocks have been given their exits. -/
def Advances (g g' : BlockGraph) : Prop := g.Settles g' ∨ ∃ ops, Settles ⟨g.blocks.push ⟨ops, .opened⟩⟩ g'

theorem Settles.extends' (h : g.Settles g') : g.Extends g' := by
  induction h with
  | refl => exact .refl g
  | tail _ hstep ih =>
    obtain ⟨id, exit, ⟨b, hb, hopen⟩, -, rfl⟩ := hstep
    exact ih.trans (grows_withExit exit hb hopen (Nat.zero_le _)).extends'

theorem Extends.exit_eq {id : BlockId} {b b' : Block} (h : g.Extends g') (hb : g.block? id = some b)
    (hb' : g'.block? id = some b') (hgiven : b.exit ≠ .opened) : b'.exit = b.exit := by
  obtain ⟨_, hfrom, -, hkept⟩ := h id b hb
  obtain rfl := Option.some.inj (hb'.symm.trans hfrom)
  exact hkept hgiven

theorem Extends.opened_of_ne {id : BlockId} {b b' : Block} (h : g.Extends g') (hb : g.block? id = some b)
    (hb' : g'.block? id = some b') (hne : b'.exit ≠ b.exit) : b.exit = .opened := by
  by_contra hgiven
  exact hne (h.exit_eq hb hb' hgiven)

theorem size_withExit (g : BlockGraph) (id : BlockId) (exit : Exit) : (g.withExit id exit).size = g.size := by
  rw [size, withExit, Array.size_modify, size]

theorem Settles.size_eq (h : g.Settles g') : g'.size = g.size := by
  induction h with
  | refl => rfl
  | tail _ hstep ih =>
    obtain ⟨id, exit, -, -, rfl⟩ := hstep
    rw [size_withExit, ih]

theorem Advances.extends' (h : g.Advances g') : g.Extends g' := by
  rcases h with h | ⟨ops, h⟩
  · exact h.extends'
  · exact (grows_push g _).extends'.trans h.extends'

theorem Advances.size_le (h : g.Advances g') : g'.size ≤ g.size + 1 := by
  rcases h with h | ⟨ops, h⟩
  · rw [h.size_eq]
    exact Nat.le_succ _
  · exact Nat.le_of_eq (h.size_eq.trans (Array.size_push _))

/-- An action gives exits to open blocks, and that is all it does. -/
def OnlySettles (action : Linking α) : Prop := ∀ g : BlockGraph, g.Settles (action.run.run g).2

theorem onlySettles_pure (a : α) : OnlySettles (pure a : Linking α) := fun _ => .refl

theorem onlySettles_throw (e : CompileError) : OnlySettles (throw e : Linking α) := fun _ => .refl

theorem OnlySettles.bind {x : Linking α} {k : α → Linking β} (hx : OnlySettles x) (hk : ∀ a, OnlySettles (k a)) :
    OnlySettles (x >>= k) := by
  intro g
  have hfirst := hx g
  rw [run_bind]
  rcases hrun : x.run.run g with ⟨e | a, mid⟩
  · rwa [hrun] at hfirst
  · rw [hrun] at hfirst
    exact hfirst.trans (hk a mid)

theorem onlySettles_close (id : BlockId) {exit : Exit} (hexit : exit ≠ .opened) : OnlySettles (close id exit) := by
  intro g
  rw [run_close]
  cases hb : g.block? id with
  | none => exact .refl
  | some b =>
    dsimp only
    by_cases hopen : b.exit = .opened
    · rw [if_pos hopen]
      exact .single ⟨id, exit, ⟨b, hb, hopen⟩, hexit, rfl⟩
    · rw [if_neg hopen]
      exact .refl

theorem onlySettles_branch (source : BlockId) (targets : List BlockId) : OnlySettles (branch source targets) := by
  match targets with
  | [] => exact onlySettles_throw _
  | [_] => exact onlySettles_throw _
  | first :: second :: others => exact onlySettles_close source (by simp)

theorem onlySettles_terminate (id : BlockId) : OnlySettles (terminate id) := by
  intro g
  rw [run_terminate]
  cases hb : g.block? id with
  | none => exact .refl
  | some b =>
    dsimp only
    by_cases hopen : b.exit = .opened
    · rw [if_pos hopen]
      exact .single ⟨id, .terminal, ⟨b, hb, hopen⟩, by simp, rfl⟩
    · rw [if_neg hopen]
      exact .refl

theorem onlySettles_follow (context : String) (last : Option BlockId) (target : BlockId) :
    OnlySettles (follow context last target) := by
  cases last with
  | none => exact onlySettles_throw _
  | some source => exact onlySettles_close source (by simp)

theorem onlySettles_seq (first second : Fragment) : OnlySettles (seq first second) :=
  (onlySettles_follow _ _ _).bind fun _ => onlySettles_pure _

theorem onlySettles_foldlM_seq (first : Fragment) (rest : List Fragment) : OnlySettles (rest.foldlM seq first) := by
  induction rest generalizing first with
  | nil => exact onlySettles_pure first
  | cons next rest ih =>
    rw [List.foldlM_cons]
    exact (onlySettles_seq first next).bind ih

/-! ### What a request does -/

theorem advances_of_addBlock {ops : List Operation} {k : BlockId → Linking α} (hk : ∀ id, OnlySettles (k id))
    (g : BlockGraph) : g.Advances ((addBlock ops >>= k).run.run g).2 :=
  .inr ⟨ops, hk ⟨g.size⟩ ⟨g.blocks.push ⟨ops, .opened⟩⟩⟩

/-- An operation after fragments does what the requests for its parts do, and these write over no exit: until its end is
marked, the block of the operation is open. -/
theorem advances_applyOp (op : Operation) {children : List Fragment}
    (hchildren : ∀ child ∈ children, ∀ x, child.exit = some x → x.index < g.size) :
    g.Advances ((applyOp op children).run.run g).2 := by
  rw [← (applyOp_stepwise op hchildren).2, applyStepwise, fragment, bind_assoc]
  refine advances_of_addBlock (fun id => ?_) g
  rw [pure_bind]
  have hall : OnlySettles (seqAll ⟨id, some id⟩ children) := by
    cases children with
    | nil => exact onlySettles_pure _
    | cons first rest => exact onlySettles_foldlM_seq first _
  refine hall.bind fun whole => ?_
  split
  · exact (onlySettles_terminate id).bind fun _ => onlySettles_pure _
  · exact onlySettles_pure _

/-- Whatever the answer, the state is the one that is left without asking for it. -/
theorem snd_run_discard (x : Linking α) (g : BlockGraph) : ((discard x).run.run g).2 = (x.run.run g).2 := by
  show ((x >>= fun _ => pure ()).run.run g).2 = _
  rw [run_bind]
  rcases x.run.run g with ⟨e | a, mid⟩ <;> rfl

/-- Whether it is done or refused, a request makes at most one block, and then it gives exits to open blocks only. -/
theorem advances_after {request : Request} (hids : ∀ id ∈ request.ids, id.index < g.size) :
    g.Advances (request.after g) := by
  cases request with
  | addBlock ops =>
    rw [Request.after, Request.perform, snd_run_discard]
    exact .inr ⟨ops, .refl⟩
  | fragment ops =>
    rw [Request.after, Request.perform, snd_run_discard]
    exact .inr ⟨ops, .refl⟩
  | link source target => exact .inl (onlySettles_close source (by simp) g)
  | branch source targets => exact .inl (onlySettles_branch source targets g)
  | seq first second =>
    rw [Request.after, Request.perform, snd_run_discard]
    exact .inl (onlySettles_seq first second g)
  | applyOp op children =>
    rw [Request.after, Request.perform, snd_run_discard]
    refine advances_applyOp op fun child hchild x hx => hids x ?_
    refine List.mem_flatMap.2 ⟨child, hchild, List.mem_cons_of_mem _ ?_⟩
    rw [hx]
    exact List.mem_singleton_self x
  | terminate id => exact .inl (onlySettles_terminate id g)

/-! ### What many requests do -/

section Run

variable {requests : List Request} {i j k : Nat}

theorem stage_succ {request : Request} (h : requests[k]? = some request) :
    g.stage requests (k + 1) = request.after (g.stage requests k) := by
  rw [stage, List.take_add_one, h, List.foldl_append, stage]
  rfl

theorem stage_succ_of_none (h : requests[k]? = none) : g.stage requests (k + 1) = g.stage requests k := by
  rw [stage, List.take_add_one, h, List.foldl_append, stage]
  rfl

theorem Known.advances (hknown : g.Known requests) (k : Nat) :
    (g.stage requests k).Advances (g.stage requests (k + 1)) := by
  cases hrequest : requests[k]? with
  | none =>
    rw [stage_succ_of_none hrequest]
    exact .inl .refl
  | some request =>
    rw [stage_succ hrequest]
    exact advances_after (hknown k request hrequest)

theorem Known.extends' (hknown : g.Known requests) (hij : i ≤ j) :
    (g.stage requests i).Extends (g.stage requests j) := by
  induction hij with
  | refl => exact .refl _
  | step _ ih => exact ih.trans (hknown.advances _).extends'

/-- A block that has been given another exit keeps that. -/
theorem Known.not_reassigned {id : BlockId} (hknown : g.Known requests) (hij : i < j)
    (h : g.Reassigned requests id i) : ¬ g.Reassigned requests id j := by
  rintro ⟨c, c', hc, hc', hne'⟩
  obtain ⟨b, b', hb, hb', hne⟩ := h
  have hopen : b.exit = .opened := (hknown.advances i).extends'.opened_of_ne hb hb' hne
  have hgiven : b'.exit ≠ .opened := fun h => hne (h.trans hopen.symm)
  have hthere : c.exit = b'.exit := (hknown.extends' hij).exit_eq hb' hc hgiven
  exact hne' ((hknown.advances j).extends'.exit_eq hc hc' (by rwa [hthere]))

end Run

/-- Each request makes at most one block and gives exits to open blocks only, also if it is refused halfway.  Through all
requests, no block is lost and none gets other operations, and there is at most one request that gives a block another
exit: the block was open, and control now goes on to a block, to one of two or more, or nowhere. -/
theorem exits_assigned_once (g : BlockGraph) (requests : List Request) (hknown : g.Known requests) :
    (∀ k, (g.stage requests k).Advances (g.stage requests (k + 1))) ∧
    (∀ i j, i ≤ j → (g.stage requests i).size ≤ (g.stage requests j).size ∧
      ∀ id b, (g.stage requests i).block? id = some b →
        ∃ b', (g.stage requests j).block? id = some b' ∧ b'.ops = b.ops) ∧
    (∀ id i j, g.Reassigned requests id i → g.Reassigned requests id j → i = j) ∧
    (∀ id k b b', (g.stage requests k).block? id = some b → (g.stage requests (k + 1)).block? id = some b' →
      b'.exit ≠ b.exit → b.exit = .opened ∧ ((∃ target, b'.exit = .next target) ∨
        (∃ first second others, b'.exit = .branch first second others) ∨ b'.exit = .terminal)) ∧
    ∀ k, (g.stage requests (k + 1)).size ≤ (g.stage requests k).size + 1 ∧
      ∀ id b, (g.stage requests k).block? id = some b → b.exit ≠ .opened →
        ∃ b', (g.stage requests (k + 1)).block? id = some b' ∧ b'.exit = b.exit := by
  refine ⟨hknown.advances, fun i j hij => ⟨(hknown.extends' hij).size_le, fun id b hb => ?_⟩, fun id i j hi hj => ?_,
    fun id k b b' hb hb' hne => ?_, fun k => ⟨(hknown.advances k).size_le, fun id b hb hgiven => ?_⟩⟩
  · obtain ⟨b', hb', hops, -⟩ := hknown.extends' hij id b hb
    exact ⟨b', hb', hops⟩
  · rcases Nat.lt_trichotomy i j with hlt | heq | hlt
    · exact absurd hj (hknown.not_reassigned hlt hi)
    · exact heq
    · exact absurd hi (hknown.not_reassigned hlt hj)
  · have hopen : b.exit = .opened := (hknown.advances k).extends'.opened_of_ne hb hb' hne
    refine ⟨hopen, ?_⟩
    cases hexit : b'.exit with
    | opened => exact absurd (hexit.trans hopen.symm) hne
    | next target => exact .inl ⟨target, rfl⟩
    | branch first second others => exact .inr (.inl ⟨first, second, others, rfl⟩)
    | terminal => exact .inr (.inr rfl)
  · obtain ⟨b', hb', -, hkept⟩ := (hknown.advances k).extends' id b hb
    exact ⟨b', hb', hkept hgiven⟩

/-- An addition that repeats an operand, a second link and an operation that ends the program. -/
def attempts : List Request :=
  [.applyOp .add [⟨⟨0⟩, some ⟨0⟩⟩, ⟨⟨1⟩, some ⟨1⟩⟩, ⟨⟨0⟩, some ⟨0⟩⟩], .link ⟨0⟩ ⟨2⟩,
    .applyOp .ret [⟨⟨2⟩, some ⟨2⟩⟩]]

/-- The addition is refused, but a link has been made from the operand, and the other requests leave that alone. -/
theorem exits_assigned_once_attempts :
    apart.Known attempts ∧ apart.stage attempts 2 = entangled ∧ apart.Reassigned attempts ⟨0⟩ 0 ∧
      ∀ k, apart.Reassigned attempts ⟨0⟩ k → k = 0 := by
  have hknown : apart.Known attempts := by
    rintro (_ | _ | _ | k) request hrequest
    all_goals cases hrequest
    · show ∀ id ∈ [BlockId.mk 0, ⟨0⟩, ⟨1⟩, ⟨1⟩, ⟨0⟩, ⟨0⟩], id.index < 2
      decide
    · show ∀ id ∈ [BlockId.mk 0, ⟨2⟩], id.index < 3
      decide
    · show ∀ id ∈ [BlockId.mk 2, ⟨2⟩], id.index < 3
      decide
  have hfirst : apart.Reassigned attempts ⟨0⟩ 0 :=
    ⟨⟨[.int 1], .opened⟩, ⟨[.int 1], .next ⟨1⟩⟩, rfl, rfl, by simp⟩
  obtain ⟨-, -, hsame, -⟩ := exits_assigned_once apart attempts hknown
  exact ⟨hknown, rfl, hfirst, fun k hk => hsame ⟨0⟩ k 0 hk hfirst⟩

end BlockGraph

end ScratchMachine
