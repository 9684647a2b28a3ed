import ScratchMachine.Proofs.Linking
import ScratchMachine.Proofs.SameCourse

/-!
# Laws of linking

One fragment after another, and then a third, is one fragment before the other two: both ways give open ends their exits,
and these are different blocks.  An operation after fragments is what its parts say: its block is made, the fragments and
the block are put one after the other, and the end is marked last.

* `BlockGraph.seq_eq_ok`: when a fragment can follow another, and what becomes of the graph.
* `BlockGraph.seq_seq_eq_ok`, `BlockGraph.seq_eq_ok_seq`: three fragments, put together in both ways.
* `BlockGraph.seqAll`, `BlockGraph.applyStepwise`: an operation after fragments, by requests for its parts.
* `BlockGraph.linking_laws`: both laws.
-/

namespace ScratchMachine

open Fallible

namespace BlockGraph

variable {g g' : BlockGraph} {x y own : BlockId} {exit exit' : Exit} {a b c f : Fragment}

/-! ### Exits given one after the other -/

theorem isOpen_withExit (hexit : exit ≠ .opened) : (g.withExit x exit).IsOpen y ↔ y ≠ x ∧ g.IsOpen y := by
  by_cases heq : y = x
  · subst heq
    refine ⟨?_, fun h => absurd rfl h.1⟩
    rintro ⟨b, hb, hopen⟩
    rw [block?, withExit, Array.getElem?_modify, if_pos rfl] at hb
    obtain ⟨b', -, rfl⟩ := Option.map_eq_some_iff.1 hb
    exact absurd hopen hexit
  · unfold IsOpen
    rw [block?_withExit_of_ne exit heq]
    exact ⟨fun h => ⟨heq, h⟩, fun h => h.2⟩

/-- Two blocks can be given their exits in any order. -/
theorem withExit_comm (hne : x ≠ y) :
    (g.withExit x exit).withExit y exit' = (g.withExit y exit').withExit x exit := by
  have hindex : x.index ≠ y.index := fun heq => hne (by cases x; cases y; exact congrArg BlockId.mk heq)
  refine congrArg BlockGraph.mk (Array.ext_getElem? fun i => ?_)
  simp only [withExit, Array.getElem?_modify]
  by_cases hx : x.index = i
  · have hy : y.index ≠ i := fun hy => hindex (hx.trans hy.symm)
    simp only [if_pos hx, if_neg hy]
  · simp only [if_neg hx]

/-! ### One fragment after another -/

theorem close_eq_ok {u : Unit} : (close x exit).run.run g = (.ok u, g') ↔ g.IsOpen x ∧ g' = g.withExit x exit := by
  rw [run_close]
  constructor
  · intro h
    split at h
    · cases h
    · rename_i b hb
      split at h
      · rename_i hopen
        cases h
        exact ⟨⟨b, hb, hopen⟩, rfl⟩
      · cases h
  · rintro ⟨⟨b, hb, hopen⟩, rfl⟩
    rw [hb]
    exact if_pos hopen

theorem follow_eq_ok {context : String} {last : Option BlockId} {target : BlockId} {u : Unit} :
    (follow context last target).run.run g = (.ok u, g') ↔
      ∃ x, last = some x ∧ g.IsOpen x ∧ g' = g.withExit x (.next target) := by
  cases last with
  | none =>
    constructor
    · intro h
      cases h
    · rintro ⟨x, hx, -⟩
      cases hx
  | some x =>
    refine close_eq_ok.trans ⟨fun h => ⟨x, rfl, h⟩, ?_⟩
    rintro ⟨x', hx, h⟩
    obtain rfl := Option.some.inj hx
    exact h

/-- A fragment can follow another if the end of that is open. -/
theorem seq_eq_ok : (seq a b).run.run g = (.ok f, g') ↔
    f = ⟨a.entry, b.exit⟩ ∧ ∃ x, a.exit = some x ∧ g.IsOpen x ∧ g' = g.withExit x (.next b.entry) := by
  refine bind_eq_ok.trans ⟨?_, ?_⟩
  · rintro ⟨_, mid, hfollow, hpure⟩
    cases hpure
    exact ⟨rfl, follow_eq_ok.1 hfollow⟩
  · rintro ⟨rfl, h⟩
    exact ⟨(), g', follow_eq_ok.2 h, rfl⟩

/-- Two fragments, then a third: the ends of the first two are open, and they are not the same block. -/
theorem seq_seq_eq_ok :
    (do seq (← seq a b) c : Linking Fragment).run.run g = (.ok f, g') ↔
      f = ⟨a.entry, c.exit⟩ ∧ ∃ x y, a.exit = some x ∧ b.exit = some y ∧ x ≠ y ∧ g.IsOpen x ∧ g.IsOpen y ∧
        g' = (g.withExit x (.next b.entry)).withExit y (.next c.entry) := by
  refine bind_eq_ok.trans ⟨?_, ?_⟩
  · rintro ⟨ab, mid, hab, habc⟩
    obtain ⟨rfl, x, hx, hopen, rfl⟩ := seq_eq_ok.1 hab
    obtain ⟨rfl, y, hy, hopen', rfl⟩ := seq_eq_ok.1 habc
    obtain ⟨hne, hopen'⟩ := (isOpen_withExit (by simp)).1 hopen'
    exact ⟨rfl, x, y, hx, hy, hne.symm, hopen, hopen', rfl⟩
  · rintro ⟨rfl, x, y, hx, hy, hne, hopen, hopen', rfl⟩
    refine ⟨⟨a.entry, b.exit⟩, g.withExit x (.next b.entry), seq_eq_ok.2 ⟨rfl, x, hx, hopen, rfl⟩, ?_⟩
    exact seq_eq_ok.2 ⟨rfl, y, hy, (isOpen_withExit (by simp)).2 ⟨hne.symm, hopen'⟩, rfl⟩

/-- A fragment, then two others put together before: the same is asked, and the ends are given their exits in the other
order. -/
theorem seq_eq_ok_seq :
    (do seq a (← seq b c) : Linking Fragment).run.run g = (.ok f, g') ↔
      f = ⟨a.entry, c.exit⟩ ∧ ∃ x y, a.exit = some x ∧ b.exit = some y ∧ x ≠ y ∧ g.IsOpen x ∧ g.IsOpen y ∧
        g' = (g.withExit y (.next c.entry)).withExit x (.next b.entry) := by
  refine bind_eq_ok.trans ⟨?_, ?_⟩
  · rintro ⟨bc, mid, hbc, habc⟩
    obtain ⟨rfl, y, hy, hopen', rfl⟩ := seq_eq_ok.1 hbc
    obtain ⟨rfl, x, hx, hopen, rfl⟩ := seq_eq_ok.1 habc
    obtain ⟨hne, hopen⟩ := (isOpen_withExit (by simp)).1 hopen
    exact ⟨rfl, x, y, hx, hy, hne, hopen, hopen', rfl⟩
  · rintro ⟨rfl, x, y, hx, hy, hne, hopen, hopen', rfl⟩
    refine ⟨⟨b.entry, c.exit⟩, g.withExit y (.next c.entry), seq_eq_ok.2 ⟨rfl, y, hy, hopen', rfl⟩, ?_⟩
    exact seq_eq_ok.2 ⟨rfl, x, hx, (isOpen_withExit (by simp)).2 ⟨hne, hopen⟩, rfl⟩

/-! ### An operation after fragments -/

/-- Fragments one after the other, and one more after them. -/
def seqAll (last : Fragment) : List Fragment → Linking Fragment
  | [] => return last
  | first :: rest => (rest ++ [last]).foldlM seq first

/-- An operation after fragments, by requests for its parts: the block of the operation is made, every fragment and then
the block follows what is before it, and if the operation is terminal, the end of the block is marked. -/
def applyStepwise (op : Operation) (children : List Fragment) : Linking Fragment := do
  let own ← fragment [op]
  let whole ← seqAll own children
  if op.isTerminal then
    terminate own.entry
    return ⟨whole.entry, none⟩
  else return whole

end BlockGraph

namespace CompileError

/-- The error as it is worded for the operands of an operation. -/
def forOperands : CompileError → CompileError
  | neverFallsThrough _ => neverFallsThrough "argument list"
  | e => e

@[simp] theorem kind_forOperands (e : CompileError) : e.forOperands.kind = e.kind := by
  cases e <;> rfl

/-- Two errors of composition are the same, but for the wording. -/
def Rephrases (e e' : CompileError) : Prop := e'.kind = .composition ∧ e = e'.forOperands

end CompileError

namespace BlockGraph

/-- Two actions take the same course in one graph, of which a block stays open, but for the wording of an error. -/
abbrev Rephrased {α α' : Type} (own : BlockId) (A : α → α' → Prop) (action : Linking α) (action' : Linking α') : Prop :=
  Parallel (fun g g' => g' = g ∧ g.IsOpen own) CompileError.Rephrases A action action'

theorem rephrased_follow {last : Option BlockId} (target : BlockId) (hlast : last ≠ some own) :
    Rephrased own (fun _ _ => True) (follow "argument list" last target) (follow "seq" last target) := by
  cases last with
  | none => exact parallel_throw ⟨rfl, rfl⟩
  | some x =>
    rintro _ g ⟨rfl, hown⟩
    rw [follow, follow, link, run_close]
    cases hb : g.block? x with
    | none => exact ⟨.error ⟨rfl, rfl⟩, rfl, hown⟩
    | some b =>
      dsimp only
      by_cases hopen : b.exit = .opened
      · rw [if_pos hopen]
        have hne : own ≠ x := fun heq => hlast (by rw [heq])
        exact ⟨.ok trivial, rfl, (isOpen_withExit (by simp)).2 ⟨hne, hown⟩⟩
      · rw [if_neg hopen]
        exact ⟨.error ⟨rfl, rfl⟩, rfl, hown⟩

/-- Fragments that follow each other one by one end where their chain ends. -/
theorem rephrased_chain (entry : BlockId) {last : Option BlockId} {rest : List Fragment} (hlast : last ≠ some own)
    (hrest : ∀ next ∈ rest, next.exit ≠ some own) :
    Rephrased own (fun last' whole => whole = ⟨entry, last'⟩ ∧ last' ≠ some own) (chain last rest)
      (rest.foldlM seq ⟨entry, last⟩) := by
  induction rest generalizing last with
  | nil => exact parallel_pure ⟨rfl, hlast⟩
  | cons next rest ih =>
    obtain ⟨hnext, hrest⟩ := List.forall_mem_cons.1 hrest
    rw [List.foldlM_cons, seq, bind_assoc]
    refine (rephrased_follow next.entry hlast).bind fun _ _ _ => ?_
    rw [pure_bind]
    exact ih hnext hrest

theorem run_terminate (id : BlockId) (g : BlockGraph) :
    (terminate id).run.run g = match g.block? id with
      | none => (.error (.unknownBlock id), g)
      | some b => (.ok (), if b.exit = .opened then g.withExit id .terminal else g) := by
  rw [terminate, run_bind, run_get]
  dsimp only
  rw [block]
  cases g.block? id with
  | none => rfl
  | some b =>
    show (if b.exit = .opened then setExit id .terminal else pure () : Linking Unit).run.run g = _
    dsimp only
    by_cases hopen : b.exit = .opened
    · rw [if_pos hopen, if_pos hopen]
      rfl
    · rw [if_neg hopen, if_neg hopen]
      rfl

theorem terminate_of_isOpen (hopen : g.IsOpen x) : (terminate x).run.run g = (.ok (), g.withExit x .terminal) := by
  obtain ⟨b, hb, hexit⟩ := hopen
  rw [run_terminate, hb]
  exact congrArg (Prod.mk _) (if_pos hexit)

/-- When control comes to the block of the operation, only its end is left to be marked. -/
theorem rephrased_finish (op : Operation) (entry : BlockId) (hopen : g.IsOpen own) :
    SameEnd (fun g g' => g' = g) CompileError.Rephrases (fun f f' => f' = f)
      ((if op.isTerminal then do
        setExit own .terminal
        return ⟨entry, none⟩
      else return ⟨entry, some own⟩ : Linking Fragment).run.run g)
      ((if op.isTerminal then do
        terminate own
        return ⟨entry, none⟩
      else return ⟨entry, some own⟩ : Linking Fragment).run.run g) := by
  by_cases hterminal : op.isTerminal = true
  · rw [if_pos hterminal, if_pos hterminal, run_bind, run_bind, terminate_of_isOpen hopen]
    exact ⟨.ok rfl, rfl⟩
  · rw [if_neg hterminal, if_neg hterminal]
    exact ⟨.ok rfl, rfl⟩

/-- Made by requests for its parts, an operation after fragments comes to the same end. -/
theorem applyOp_stepwise (op : Operation) {children : List Fragment}
    (hchildren : ∀ child ∈ children, ∀ x, child.exit = some x → x.index < g.size) :
    SameEnd (fun g g' => g' = g) CompileError.Rephrases (fun f f' => f' = f)
      ((applyOp op children).run.run g) ((applyStepwise op children).run.run g) := by
  have hne : ∀ child ∈ children, child.exit ≠ some ⟨g.size⟩ :=
    fun child hchild heq => Nat.lt_irrefl _ (hchildren child hchild _ heq)
  have hfresh : SameEnd (fun t t' => t' = t ∧ t.IsOpen ⟨g.size⟩) CompileError.Rephrases
      (fun own own' => own = ⟨g.size⟩ ∧ own' = ⟨own, some own⟩) ((addBlock [op]).run.run g)
      ((fragment [op]).run.run g) := by
    refine ⟨.ok ⟨rfl, rfl⟩, rfl, ⟨[op], .opened⟩, ?_, rfl⟩
    exact (block?_push g _ _).trans (if_pos rfl)
  refine hfresh.bind (fun _ _ h => h.1) ?_
  rintro own _ _ t ⟨rfl, rfl⟩ ⟨rfl, hopen⟩
  cases children with
  | nil => exact rephrased_finish op _ hopen
  | cons first rest =>
    obtain ⟨hfirst, hrest⟩ := List.forall_mem_cons.1 hne
    rw [seqAll, List.foldlM_append, bind_assoc]
    refine (rephrased_chain first.entry hfirst hrest t t ⟨rfl, hopen⟩).bind (fun _ _ h => h.1) ?_
    rintro last _ _ t' ⟨rfl, hlast⟩ ⟨rfl, hopen'⟩
    rw [List.foldlM_cons, seq, bind_assoc, bind_assoc]
    refine (rephrased_follow _ hlast t' t' ⟨rfl, hopen'⟩).bind (fun _ _ h => h.1) ?_
    rintro _ _ _ t'' - ⟨rfl, hopen''⟩
    exact rephrased_finish op _ hopen''

/-! ### Both laws -/

/-- Three fragments can be put one after the other in one way if they can in the other, with the same fragment and the
same graph.  An operation after fragments of the graph succeeds, with the same fragment, if the requests for its parts do,
or both fail with an error of composition, which is the same but for the wording.  In any case they leave the same graph,
with the links that were made until an error. -/
theorem linking_laws (g : BlockGraph) :
    (∀ (a b c f : Fragment) (g' : BlockGraph),
      (do seq (← seq a b) c : Linking Fragment).run.run g = (.ok f, g') ↔
        (do seq a (← seq b c) : Linking Fragment).run.run g = (.ok f, g')) ∧
    ∀ (op : Operation) (children : List Fragment),
      (∀ child ∈ children, ∀ x, child.exit = some x → x.index < g.size) →
        ((applyOp op children).run.run g).2 = ((applyStepwise op children).run.run g).2 ∧
        ((∃ f, ((applyOp op children).run.run g).1 = .ok f ∧ ((applyStepwise op children).run.run g).1 = .ok f) ∨
          ∃ e, ((applyOp op children).run.run g).1 = .error e.forOperands ∧
            ((applyStepwise op children).run.run g).1 = .error e ∧
            e.kind = .composition ∧ e.forOperands.kind = .composition) := by
  refine ⟨fun a b c f g' => ?_, fun op children hchildren => ?_⟩
  · rw [seq_seq_eq_ok, seq_eq_ok_seq]
    refine and_congr_right fun _ => exists_congr fun x => exists_congr fun y => and_congr_right fun _ =>
      and_congr_right fun _ => and_congr_right fun hne => ?_
    rw [withExit_comm hne]
  · obtain ⟨hanswer, hstate⟩ := applyOp_stepwise op hchildren
    refine ⟨hstate.symm, ?_⟩
    revert hanswer
    generalize ((applyOp op children).run.run g).1 = answer
    generalize ((applyStepwise op children).run.run g).1 = answer'
    intro hanswer
    cases hanswer with
    | ok heq => exact .inl ⟨_, rfl, congrArg Except.ok heq⟩
    | @error e e' herror =>
      obtain ⟨hkind, rfl⟩ := herror
      exact .inr ⟨e', rfl, rfl, hkind, (e'.kind_forOperands).trans hkind⟩

/-- Two blocks that are open. -/
def apart : BlockGraph := ⟨#[⟨[.int 1], .opened⟩, ⟨[.int 2], .opened⟩]⟩

/-- The same two blocks, linked to each other, and the block of an addition. -/
def entangled : BlockGraph := ⟨#[⟨[.int 1], .next ⟨1⟩⟩, ⟨[.int 2], .next ⟨0⟩⟩, ⟨[.add], .opened⟩]⟩

/-- When an operand comes once more, its end is linked already; the links until then have been made. -/
theorem linking_laws_repeated :
    (∀ child ∈ [Fragment.mk ⟨0⟩ (some ⟨0⟩), ⟨⟨1⟩, some ⟨1⟩⟩, ⟨⟨0⟩, some ⟨0⟩⟩], ∀ x, child.exit = some x →
        x.index < apart.size) ∧
      (applyOp .add [⟨⟨0⟩, some ⟨0⟩⟩, ⟨⟨1⟩, some ⟨1⟩⟩, ⟨⟨0⟩, some ⟨0⟩⟩]).run.run apart =
        (.error (.alreadyLinked ⟨0⟩ (.next ⟨1⟩)), entangled) ∧
      ((applyStepwise .add [⟨⟨0⟩, some ⟨0⟩⟩, ⟨⟨1⟩, some ⟨1⟩⟩, ⟨⟨0⟩, some ⟨0⟩⟩]).run.run apart).2 = entangled := by
  have hwithin : ∀ child ∈ [Fragment.mk ⟨0⟩ (some ⟨0⟩), ⟨⟨1⟩, some ⟨1⟩⟩, ⟨⟨0⟩, some ⟨0⟩⟩],
      ∀ x, child.exit = some x → x.index < apart.size := by
    simp [apart, size]
  have hrun : (applyOp .add [⟨⟨0⟩, some ⟨0⟩⟩, ⟨⟨1⟩, some ⟨1⟩⟩, ⟨⟨0⟩, some ⟨0⟩⟩]).run.run apart =
      (.error (.alreadyLinked ⟨0⟩ (.next ⟨1⟩)), entangled) := rfl
  obtain ⟨hgraph, -⟩ := (linking_laws apart).2 .add _ hwithin
  exact ⟨hwithin, hrun, hgraph.symm.trans (congrArg Prod.snd hrun)⟩

end BlockGraph

end ScratchMachine
