import ScratchMachine.Proofs.Availability
import ScratchMachine.Proofs.Moments
import ScratchMachine.Proofs.Numbers
import ScratchMachine.Proofs.Relocation

/-!
# Lowering side by side

Two compilers may have different graphs, slots, declarations and subroutines that wait.  As long as they have the same
version, lower the same subroutine and know the same subroutines, lowering an expression is refused by both for the same
reason, or makes the same blocks with both, in different places.  The same is true of two expressions that differ in their
numbers only.

* `BlockGraph.Mirrored`: two ways of linking that take the same course in different places.
* `Compiler.Common`: what else two compilers have in common, and keep in common.
* `Compiler.lower_parallel`: lowering takes the same course wherever the blocks stand, and whatever the numbers are.
-/

namespace ScratchMachine

open Fallible BlockGraph

variable {f : UInt64 → UInt64} {n : Nat}

/-! ### Linking in different places -/

/-- The block with other numbers in its operations. -/
def Block.renumber (f : UInt64 → UInt64) (b : Block) : Block := ⟨b.ops.map (Operation.renumber f), b.exit⟩

theorem Block.renumber_id (b : Block) : b.renumber id = b := by
  rw [renumber, List.map_congr_left fun o _ => Operation.renumber_id o, List.map_id']

namespace BlockGraph

variable {g g' : BlockGraph}

/-- A graph ends with the blocks of another, but for the numbers in their operations. -/
structure EndsWith (f : UInt64 → UInt64) (n : Nat) (g g' : BlockGraph) : Prop where
  size_eq : g'.size = n + g.size
  block?_eq : ∀ id, (g'.block? (id.shift n)).map (Block.renumber f) = (g.block? id).map (Block.shift n)

theorem endsWith_empty (g : BlockGraph) : EndsWith f g.size {} g := by
  refine ⟨rfl, fun id => ?_⟩
  have hnone : g.block? (id.shift g.size) = none := Array.getElem?_eq_none (Nat.le_add_right _ _)
  rw [hnone]
  rfl

namespace EndsWith

theorem relocates (h : EndsWith id n g g') : Relocates n g g' := by
  intro i b hb
  have heq := h.block?_eq i
  rw [hb] at heq
  obtain ⟨b', hb', hsame⟩ := Option.map_eq_some_iff.1 heq
  rw [hb', ← hsame, Block.renumber_id]

/-- A block is in both graphs, with the same exit, or in neither. -/
theorem block?_cases (h : EndsWith f n g g') (id : BlockId) :
    (g.block? id = none ∧ g'.block? (id.shift n) = none) ∨
      ∃ b b', g.block? id = some b ∧ g'.block? (id.shift n) = some b' ∧ b'.exit = b.exit.shift n := by
  have heq := h.block?_eq id
  rcases hb : g.block? id with _ | b
  · rw [hb] at heq
    exact .inl ⟨rfl, Option.map_eq_none_iff.1 heq⟩
  · rw [hb] at heq
    obtain ⟨b', hb', hsame⟩ := Option.map_eq_some_iff.1 heq
    exact .inr ⟨b, b', rfl, hb', congrArg Block.exit hsame⟩

theorem push (h : EndsWith f n g g') (ops : List Operation) :
    EndsWith f n ⟨g.blocks.push ⟨ops.map (Operation.renumber f), .opened⟩⟩ ⟨g'.blocks.push ⟨ops, .opened⟩⟩ := by
  have hsize := h.size_eq
  refine ⟨?_, fun id => ?_⟩
  · simp only [size, Array.size_push] at hsize ⊢
    omega
  · rw [block?_push, block?_push]
    have hiff : (id.shift n).index = g'.size ↔ id.index = g.size := by
      show n + id.index = g'.size ↔ _
      omega
    by_cases hid : id.index = g.size
    · rw [if_pos hid, if_pos (hiff.2 hid)]
      rfl
    · rw [if_neg hid, if_neg fun h' => hid (hiff.1 h')]
      exact h.block?_eq id

theorem withExit (h : EndsWith f n g g') (id : BlockId) (exit : Exit) :
    EndsWith f n (g.withExit id exit) (g'.withExit (id.shift n) (exit.shift n)) := by
  have hsize := h.size_eq
  refine ⟨?_, fun id' => ?_⟩
  · simp only [size, BlockGraph.withExit, Array.size_modify] at hsize ⊢
    exact hsize
  · by_cases hid : id' = id
    · subst hid
      have hsame : ∀ (g : BlockGraph) (id : BlockId) (exit : Exit),
          (g.withExit id exit).block? id = (g.block? id).map fun b => { b with exit } := by
        intro g id exit
        rw [block?, BlockGraph.withExit, Array.getElem?_modify, if_pos rfl, block?]
      have heq := h.block?_eq id'
      rw [hsame, hsame]
      cases hb : g.block? id' with
      | none =>
        rw [hb] at heq
        rw [Option.map_eq_none_iff.1 heq]
        rfl
      | some b =>
        rw [hb] at heq
        obtain ⟨b', hb', hsame⟩ := Option.map_eq_some_iff.1 heq
        have hops : b'.ops.map (Operation.renumber f) = b.ops := congrArg Block.ops hsame
        rw [hb', Option.map_some, Option.map_some, Option.map_some, Option.map_some, Block.renumber, Block.shift, hops]
    · have hid' : id'.shift n ≠ id.shift n := fun heq => hid (BlockId.shift_inj.1 heq)
      rw [block?_withExit_of_ne _ hid, block?_withExit_of_ne _ hid']
      exact h.block?_eq id'

end EndsWith

/-- Two actions take the same course in different places. -/
abbrev Mirrored {α α' : Type} (f : UInt64 → UInt64) (n : Nat) (A : α → α' → Prop) (x : Linking α) (x' : Linking α') :
    Prop :=
  Parallel (EndsWith f n) (CompileError.Matches f) A x x'

theorem mirrored_addBlock (ops : List Operation) :
    Mirrored f n (fun id id' => id' = id.shift n) (addBlock (ops.map (Operation.renumber f))) (addBlock ops) := by
  intro g g' h
  have hid : (⟨g'.size⟩ : BlockId) = (⟨g.size⟩ : BlockId).shift n := congrArg BlockId.mk h.size_eq
  exact ⟨.ok hid, h.push ops⟩

theorem mirrored_setExit (id : BlockId) (exit : Exit) :
    Mirrored f n (fun _ _ => True) (setExit id exit) (setExit (id.shift n) (exit.shift n)) :=
  fun _ _ h => ⟨.ok trivial, h.withExit id exit⟩

theorem mirrored_close (id : BlockId) (exit : Exit) :
    Mirrored f n (fun _ _ => True) (close id exit) (close (id.shift n) (exit.shift n)) := by
  intro g g' h
  rw [run_close, run_close]
  rcases h.block?_cases id with ⟨hb, hb'⟩ | ⟨b, b', hb, hb', hexit⟩
  · rw [hb, hb']
    exact ⟨.error (.of_mislink rfl rfl), h⟩
  · rw [hb, hb']
    simp only [hexit, Exit.shift_eq_opened]
    by_cases hopen : b.exit = .opened
    · rw [if_pos hopen, if_pos hopen]
      exact ⟨.ok trivial, h.withExit id exit⟩
    · rw [if_neg hopen, if_neg hopen]
      exact ⟨.error (.of_mislink rfl rfl), h⟩

theorem mirrored_link (source target : BlockId) :
    Mirrored f n (fun _ _ => True) (link source target) (link (source.shift n) (target.shift n)) :=
  mirrored_close source (.next target)

theorem mirrored_branch (source first second : BlockId) :
    Mirrored f n (fun _ _ => True) (branch source [first, second])
      (branch (source.shift n) [first.shift n, second.shift n]) :=
  mirrored_close source (.branch first second [])

theorem mirrored_follow (context : String) (last : Option BlockId) (target : BlockId) :
    Mirrored f n (fun _ _ => True) (follow context last target)
      (follow context (last.map (BlockId.shift n)) (target.shift n)) := by
  cases last with
  | none => exact parallel_throw (.refl _)
  | some source => exact mirrored_link source target

theorem mirrored_fragment (ops : List Operation) :
    Mirrored f n (fun made made' => made' = made.shift n) (fragment (ops.map (Operation.renumber f))) (fragment ops) := by
  apply (mirrored_addBlock ops).bind
  rintro id _ rfl
  exact parallel_pure rfl

theorem mirrored_seq (first second : Fragment) :
    Mirrored f n (fun made made' => made' = made.shift n) (seq first second) (seq (first.shift n) (second.shift n)) := by
  apply (mirrored_follow "seq" first.exit second.entry).bind
  intro _ _ _
  exact parallel_pure rfl

theorem mirrored_chain (last : Option BlockId) (fragments : List Fragment) :
    Mirrored f n (fun x x' => x' = x.map (BlockId.shift n)) (chain last fragments)
      (chain (last.map (BlockId.shift n)) (fragments.map (Fragment.shift n))) := by
  induction fragments generalizing last with
  | nil => exact parallel_pure rfl
  | cons next rest ih =>
    apply (mirrored_follow "argument list" last next.entry).bind
    intro _ _ _
    exact ih next.exit

theorem mirrored_applyOp (op : Operation) (fragments : List Fragment) :
    Mirrored f n (fun made made' => made' = made.shift n) (applyOp (op.renumber f) fragments)
      (applyOp op (fragments.map (Fragment.shift n))) := by
  have hend : ∀ own entry : BlockId, Mirrored f n (fun made made' => made' = made.shift n)
      (if (op.renumber f).isTerminal then do
        setExit own .terminal
        return (⟨entry, none⟩ : Fragment)
      else return ⟨entry, some own⟩)
      (if op.isTerminal then do
        setExit (own.shift n) .terminal
        return (⟨entry.shift n, none⟩ : Fragment)
      else return ⟨entry.shift n, some (own.shift n)⟩) := by
    intro own entry
    rw [Operation.isTerminal_renumber]
    split
    · exact (mirrored_setExit own .terminal).bind fun _ _ _ => parallel_pure rfl
    · exact parallel_pure rfl
  apply (mirrored_addBlock [op]).bind
  rintro own _ rfl
  cases fragments with
  | nil => exact hend own own
  | cons first rest =>
    apply (mirrored_chain first.exit rest).bind
    rintro last _ rfl
    apply (mirrored_follow "argument list" last own).bind
    intro _ _ _
    exact hend own first.entry

theorem mirrored_joinArm (arm : Fragment) (join : BlockId) :
    Mirrored f n (fun _ _ => True) (Compiler.joinArm arm join) (Compiler.joinArm (arm.shift n) (join.shift n)) := by
  obtain ⟨entry, exit⟩ := arm
  cases exit with
  | none => exact parallel_pure trivial
  | some last => exact mirrored_link last join

end BlockGraph

/-! ### Lowering in different places -/

namespace Compiler

variable {σ τ : Type} {α α' : Type} {A : α → α' → Prop} {c : Compiler σ} {c' : Compiler τ}

/-- Two compilers for the same version know the same subroutines and are at the same one.  Nothing else about them need
be the same. -/
structure Comparable (c : Compiler σ) (c' : Compiler τ) : Prop where
  version : c'.options.version = c.options.version
  current : c'.current = c.current
  handles : c'.definitions.map (·.handle) = c.definitions.map (·.handle)

/-- A subroutine is known to both or to neither. -/
theorem Comparable.definition?_cases (h : Comparable c c') (s : Subroutine) :
    (c.definition? s = none ∧ c'.definition? s = none) ∨
      ∃ d d', c.definition? s = some d ∧ c'.definition? s = some d' := by
  have hhandle : (c'.definitions[s.id.number.toNat]?).map (·.handle) =
      (c.definitions[s.id.number.toNat]?).map (·.handle) := by
    rw [← List.getElem?_map, ← List.getElem?_map, h.handles]
  unfold definition?
  rcases hd : c.definitions[s.id.number.toNat]? with _ | d
  · rw [hd] at hhandle
    rw [Option.map_eq_none_iff.1 hhandle]
    exact .inl ⟨rfl, rfl⟩
  · rw [hd] at hhandle
    obtain ⟨d', hd', hsame⟩ := Option.map_eq_some_iff.1 hhandle
    rw [hd', Option.filter_some, Option.filter_some, hsame]
    by_cases hown : d.handle = s
    · exact .inr ⟨d, d', if_pos (decide_eq_true hown), if_pos (decide_eq_true hown)⟩
    · exact .inl ⟨if_neg (by simpa using hown), if_neg (by simpa using hown)⟩

/-- Compilers that have this in common are comparable, and they keep it in common, whatever becomes of their graphs, and
when both let a subroutine wait. -/
structure Common (W : Compiler σ → Compiler τ → Prop) : Prop where
  comparable : ∀ {c c'}, W c c' → c.Comparable c'
  graph : ∀ {c c'} g g', W c c' → W { c with graph := g } { c' with graph := g' }
  waits : ∀ {c c'} s, c.Defines s → c'.Defines s → W c c' → W ((enqueue s).run.run c).2 ((enqueue s).run.run c').2

/-- Two compilers have something in common, and one of them ends with the blocks of the other. -/
structure Copies (W : Compiler σ → Compiler τ → Prop) (f : UInt64 → UInt64) (n : Nat) (c : Compiler σ) (c' : Compiler τ) :
    Prop where
  common : W c c'
  graph : EndsWith f n c.graph c'.graph

/-- Two actions take the same course with such compilers. -/
abbrev Accords (W : Compiler σ → Compiler τ → Prop) (f : UInt64 → UInt64) (n : Nat) (A : α → α' → Prop)
    (x : Compiling σ α) (x' : Compiling τ α') : Prop :=
  Parallel (Copies W f n) (CompileError.Matches f) A x x'

variable {W : Compiler σ → Compiler τ → Prop} (hW : Common W)

theorem accords_lift {x x' : Except CompileError α} (h : Tally f x x') :
    Accords W f n (fun a a' => a' = a) (liftM x : Compiling σ α) (liftM x' : Compiling τ α) := by
  cases h with
  | ok ha => exact parallel_pure ha
  | error he => exact parallel_throw he

include hW

theorem accords_onGraph {action : Linking α} {action' : Linking α'} (h : Mirrored f n A action action') :
    Accords W f n A (onGraph (σ := σ) action) (onGraph (σ := τ) action') := by
  intro c c' hc
  obtain ⟨hanswer, hgraph⟩ := h c.graph c'.graph hc.graph
  rw [run_onGraph, run_onGraph]
  exact ⟨hanswer, hW.graph _ _ hc.common, hgraph⟩

/-- To require an operation. -/
theorem accords_require {op op' : Operation} (hop : op.mnemonic = op'.mnemonic ∧ op.introducedIn = op'.introducedIn)
    {k : Compiling σ α} {k' : Compiling τ α'} (hk : Accords W f n A k k') :
    Accords W f n A (get >>= fun c => liftM (c.options.require op) >>= fun _ => k)
      (get >>= fun c => liftM (c.options.require op') >>= fun _ => k') := by
  intro c c' hc
  rw [run_require, run_require, (hW.comparable hc.common).version, hop.1, hop.2]
  by_cases havailable : op'.introducedIn ≤ c.options.version
  · rw [if_pos havailable, if_pos havailable]
    exact hk c c' hc
  · rw [if_neg havailable, if_neg havailable]
    exact ⟨.error (.refl _), hc⟩

theorem accords_emit (op : Operation) (fragments : List Fragment) :
    Accords W f n (fun made made' => made' = made.shift n) (emit (σ := σ) (op.renumber f) fragments)
      (emit (σ := τ) op (fragments.map (Fragment.shift n))) :=
  accords_require hW ⟨op.mnemonic_renumber, op.introducedIn_renumber⟩ (accords_onGraph hW (mirrored_applyOp op fragments))

/-- To look up the subroutine that is being lowered. -/
theorem accords_current {k : Option Subroutine → Compiling σ α} {l : Option Subroutine → Compiling τ α'}
    (hk : ∀ current, Accords W f n A (k current) (l current)) :
    Accords W f n A (get >>= fun c => k c.current) (get >>= fun c => l c.current) := by
  apply parallel_get.bind
  intro c c' hc
  rw [(hW.comparable hc.common).current]
  exact hk c.current

/-- To look up whether a subroutine is defined. -/
theorem accords_definition (s : Subroutine) :
    Accords W f n (fun _ _ => True) (definition s : Compiling σ (Definition σ))
      (definition s : Compiling τ (Definition τ)) := by
  intro c c' hc
  rw [run_definition, run_definition]
  rcases (hW.comparable hc.common).definition?_cases s with ⟨hd, hd'⟩ | ⟨d, d', hd, hd'⟩
  · rw [hd, hd']
    exact ⟨.error (.refl _), hc⟩
  · rw [hd, hd']
    exact ⟨.ok trivial, hc⟩

/-- To let a subroutine wait, which it may do already, or need not, in one of the places. -/
theorem accords_enqueue (s : Subroutine) :
    Accords W f n (fun _ _ => True) (enqueue s : Compiling σ Unit) (enqueue s : Compiling τ Unit) := by
  have hwait : ∀ {σ : Type} (c : Compiler σ), c.Defines s →
      ((enqueue s).run.run c).1 = .ok () ∧ ((enqueue s).run.run c).2.graph = c.graph := by
    rintro σ c ⟨d, hd⟩
    rw [run_enqueue, hd, Option.map_some]
    rcases d.status with _ | _ | decl
    · refine ⟨rfl, ?_⟩
      dsimp only
      split <;> rfl
    · exact ⟨rfl, rfl⟩
    · exact ⟨rfl, rfl⟩
  intro c c' hc
  rcases (hW.comparable hc.common).definition?_cases s with ⟨hd, hd'⟩ | ⟨d, d', hd, hd'⟩
  · rw [run_enqueue, run_enqueue, hd, hd']
    exact ⟨.error (.refl _), hc⟩
  · obtain ⟨hanswer, hgraph⟩ := hwait c ⟨d, hd⟩
    obtain ⟨hanswer', hgraph'⟩ := hwait c' ⟨d', hd'⟩
    refine ⟨by rw [hanswer, hanswer']; exact .ok trivial, hW.waits s ⟨d, hd⟩ ⟨d', hd'⟩ hc.common, ?_⟩
    rw [hgraph, hgraph']
    exact hc.graph

/-! ### The rules -/

/-- Lowering the expression takes the same course in different places, and with other numbers, and the fragment is the same
but for its place. -/
def LowersAlike (W : Compiler σ → Compiler τ → Prop) (f : UInt64 → UInt64) (n : Nat) (e : Expr) : Prop :=
  Accords W f n (fun made made' => made' = made.shift n) (lower (e.renumber f)) (lower e)

omit hW in
theorem accords_lowerAll {es : List Expr} (hes : ∀ e ∈ es, LowersAlike W f n e) :
    Accords W f n (fun fs fs' => fs' = fs.map (Fragment.shift n)) (lowerAll (es.map (Expr.renumber f))) (lowerAll es) := by
  induction es with
  | nil =>
    rw [List.map_nil, lowerAll, lowerAll]
    exact parallel_pure rfl
  | cons e es ih =>
    obtain ⟨hfirst, hothers⟩ := List.forall_mem_cons.1 hes
    rw [List.map_cons, lowerAll, lowerAll]
    apply hfirst.bind
    rintro first _ rfl
    apply (ih hothers).bind
    rintro others _ rfl
    exact parallel_pure rfl

theorem accords_lowerAfter {rest : List Expr} (hrest : ∀ e ∈ rest, LowersAlike W f n e) (before : Fragment) :
    Accords W f n (fun made made' => made' = made.shift n) (lowerAfter before (rest.map (Expr.renumber f)))
      (lowerAfter (before.shift n) rest) := by
  induction rest generalizing before with
  | nil =>
    rw [List.map_nil, lowerAfter, lowerAfter]
    exact parallel_pure rfl
  | cons e rest ih =>
    obtain ⟨hfirst, hothers⟩ := List.forall_mem_cons.1 hrest
    rw [List.map_cons, lowerAfter, lowerAfter]
    apply hfirst.bind
    rintro next _ rfl
    apply (accords_onGraph hW (mirrored_seq before next)).bind
    rintro both _ rfl
    exact ih hothers both

omit hW in
theorem accords_conditionEnd (cond : Fragment) :
    Accords W f n (fun last last' => last' = last.shift n) (liftM (conditionEnd cond) : Compiling σ BlockId)
      (liftM (conditionEnd (cond.shift n)) : Compiling τ BlockId) := by
  obtain ⟨entry, exit⟩ := cond
  cases exit with
  | none => exact parallel_throw (.refl _)
  | some last => exact parallel_pure rfl

theorem lowersAlike_ifThen {cond body : Expr} (hcond : LowersAlike W f n cond) (hbody : LowersAlike W f n body) :
    LowersAlike W f n (.ifThen cond body) := by
  unfold LowersAlike
  rw [Expr.renumber, lower, lower, Expr.type_renumber, Expr.type_renumber]
  apply (accords_lift (Tally.refl _)).bind
  intro _ _ _
  by_cases htype : body.type ≠ .none
  · rw [if_pos htype, if_pos htype]
    exact parallel_throw (.refl _)
  rw [if_neg htype, if_neg htype]
  apply hcond.bind
  rintro c _ rfl
  apply (accords_conditionEnd c).bind
  rintro last _ rfl
  apply hbody.bind
  rintro b _ rfl
  apply (accords_onGraph hW (mirrored_addBlock [])).bind
  rintro join _ rfl
  apply (accords_onGraph hW (mirrored_joinArm b join)).bind
  intro _ _ _
  apply (accords_onGraph hW (mirrored_branch last b.entry join)).bind
  intro _ _ _
  exact parallel_pure rfl

theorem lowersAlike_ifElse {cond yes no : Expr} (hcond : LowersAlike W f n cond) (hyes : LowersAlike W f n yes)
    (hno : LowersAlike W f n no) : LowersAlike W f n (.ifElse cond yes no) := by
  have harms : checkArms (yes.renumber f) (no.renumber f) = checkArms yes no := by
    rw [checkArms, checkArms, Expr.alwaysReturns_renumber, Expr.alwaysReturns_renumber, Expr.type_renumber,
      Expr.type_renumber]
  unfold LowersAlike
  rw [Expr.renumber, lower, lower, Expr.type_renumber, harms]
  apply (accords_lift (Tally.refl _)).bind
  intro _ _ _
  apply (accords_lift (Tally.refl _)).bind
  intro _ _ _
  apply hcond.bind
  rintro c _ rfl
  apply (accords_conditionEnd c).bind
  rintro last _ rfl
  apply hyes.bind
  rintro y _ rfl
  apply (accords_onGraph hW (mirrored_addBlock [])).bind
  rintro join _ rfl
  apply (accords_onGraph hW (mirrored_joinArm y join)).bind
  intro _ _ _
  apply hno.bind
  rintro m _ rfl
  apply (accords_onGraph hW (mirrored_joinArm m join)).bind
  intro _ _ _
  apply (accords_onGraph hW (mirrored_branch last y.entry m.entry)).bind
  intro _ _ _
  apply parallel_pure
  rw [Expr.alwaysReturns_renumber, Expr.alwaysReturns_renumber]
  cases yes.alwaysReturns && no.alwaysReturns <;> rfl

theorem lowersAlike_call {callee : Subroutine} {args : List Arg} (hargs : ∀ a ∈ args, LowersAlike W f n a.pushed) :
    LowersAlike W f n (.call callee args) := by
  have hpushed : ∀ e ∈ args.map Arg.pushed, LowersAlike W f n e := by
    intro e he
    obtain ⟨a, ha, rfl⟩ := List.mem_map.1 he
    exact hargs a ha
  have hmap : (args.map (Arg.renumber f)).map Arg.pushed = (args.map Arg.pushed).map (Expr.renumber f) := by
    rw [List.map_map, List.map_map]
    exact List.map_congr_left fun a _ => a.pushed_renumber
  unfold LowersAlike
  rw [Expr.renumber, Arg.renumberAll_eq, lower, lower, lowerArgs_eq, lowerArgs_eq, hmap]
  apply ((accords_definition hW callee).bind fun _ _ _ => parallel_pure (A := fun _ _ => True) trivial).bind
  intro _ _ _
  apply (accords_lift (tally_checkArgs callee args)).bind
  intro _ _ _
  apply accords_require hW ⟨rfl, rfl⟩
  apply (accords_lowerAll hpushed).bind
  rintro children _ rfl
  apply (accords_enqueue hW callee).bind
  intro _ _ _
  exact accords_emit hW (.callsub callee.id) children

omit hW in
theorem renumber_returnOp (current : Option Subroutine) : (returnOp current).renumber f = returnOp current := by
  cases current <;> rfl

/-- Lowering takes the same course wherever the blocks stand, and whatever the numbers are. -/
theorem lower_parallel (f : UInt64 → UInt64) (n : Nat) (e : Expr) : LowersAlike W f n e := by
  induction e using Expr.induction with
  | int m =>
    unfold LowersAlike
    rw [Expr.renumber, lower, lower]
    exact accords_onGraph hW (mirrored_fragment [.int m])
  | bytes b =>
    unfold LowersAlike
    rw [Expr.renumber, lower, lower]
    exact accords_onGraph hW (mirrored_fragment [.byte b])
  | op o args type returns ih =>
    unfold LowersAlike
    rw [Expr.renumber, Expr.renumberAll_eq, lower, lower]
    apply (accords_lowerAll ih).bind
    rintro children _ rfl
    exact accords_emit hW o children
  | seq items ih =>
    unfold LowersAlike
    cases items with
    | nil =>
      rw [Expr.renumber, Expr.renumberAll, lower, lower]
      exact accords_onGraph hW (mirrored_fragment [])
    | cons e rest =>
      obtain ⟨hfirst, hothers⟩ := List.forall_mem_cons.1 ih
      rw [Expr.renumber, Expr.renumberAll, Expr.renumberAll_eq, lower, lower, ← List.map_cons]
      apply (accords_lift (tally_checkItems 0 (e :: rest))).bind
      intro _ _ _
      apply hfirst.bind
      rintro first _ rfl
      exact accords_lowerAfter hW hothers first
  | ifThen cond body ihcond ihbody => exact lowersAlike_ifThen hW ihcond ihbody
  | ifElse cond yes no ihcond ihyes ihno => exact lowersAlike_ifElse hW ihcond ihyes ihno
  | ret value ih =>
    unfold LowersAlike
    rw [Expr.renumber, lower, lower]
    apply accords_current hW (k := fun current => do
      checkReturn current (value.renumber f)
      let v ← lower (value.renumber f)
      emit (returnOp current) [v]) (l := fun current => do
      checkReturn current value
      let v ← lower value
      emit (returnOp current) [v])
    intro current
    apply (accords_lift (tally_checkReturn current value)).bind
    intro _ _ _
    apply ih.bind
    rintro v _ rfl
    have hemit := accords_emit (f := f) (n := n) hW (returnOp current) [v]
    rwa [renumber_returnOp] at hemit
  | retNothing =>
    unfold LowersAlike
    rw [Expr.renumber, lower, lower]
    apply accords_current hW (k := fun current => do
      checkReturnNone current
      emit (returnOp current) []) (l := fun current => do
      checkReturnNone current
      emit (returnOp current) [])
    intro current
    apply (accords_lift (Tally.refl _)).bind
    intro _ _ _
    have hemit := accords_emit (f := f) (n := n) hW (returnOp current) []
    rwa [renumber_returnOp] at hemit
  | call callee args ih => exact lowersAlike_call hW ih

end Compiler

end ScratchMachine
