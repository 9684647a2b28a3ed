import ScratchMachine.Proofs.Lowering

/-!
# What new blocks contain

Control does not leave the blocks that the lowering of an expression adds, until their end is linked.  Their
operations are those of the nodes of the expression, and calls of subroutines that wait for their declaration or have
it.

* `BlockGraph.Encloses`: a range of blocks that control does not leave.
* `Compiler.LowersTo.fills`: lowering adds blocks to such a range.
-/

namespace ScratchMachine

open BlockGraph Fallible

/-! ### Ranges of blocks -/

namespace BlockGraph

/-- Control does not leave the blocks with numbers from `lo` to below `hi`, and their operations have a property. -/
def Encloses (g : BlockGraph) (lo hi : Nat) (P : Operation → Prop) : Prop :=
  ∀ id b, lo ≤ id.index → id.index < hi → g.block? id = some b →
    (∀ op ∈ b.ops, P op) ∧ ∀ t ∈ b.exit.targets, lo ≤ t.index ∧ t.index < hi

variable {g g' g'' : BlockGraph} {lo hi : Nat} {P Q : Operation → Prop}

theorem Encloses.imp (h : g.Encloses lo hi P) (himp : ∀ op, P op → Q op) : g.Encloses lo hi Q := by
  intro id b hlo hhi hb
  obtain ⟨hops, htargets⟩ := h id b hlo hhi hb
  exact ⟨fun op hop => himp op (hops op hop), htargets⟩

theorem Encloses.grows (h : g.Encloses lo hi P) (hgrows : Grows g.size g g') (hhi : hi ≤ g.size) :
    g'.Encloses lo hi P := by
  intro id b hlo hlt hb
  rw [hgrows.keeps id (Nat.lt_of_lt_of_le hlt hhi)] at hb
  exact h id b hlo hlt hb

theorem Encloses.reaches (h : g.Encloses lo hi P) {id id' : BlockId} (hid : lo ≤ id.index ∧ id.index < hi)
    (hreach : g.Reaches id id') : lo ≤ id'.index ∧ id'.index < hi := by
  induction hreach with
  | refl => exact hid
  | @tail mid target _ hstep ih =>
    unfold successors at hstep
    split at hstep
    · rename_i b hb
      exact (h mid b ih.1 ih.2 hb).2 target hstep
    · cases hstep

/-- The graph has grown, and what follows block `lo` is enclosed. -/
structure Fills (lo : Nat) (P : Operation → Prop) (g g' : BlockGraph) : Prop where
  size_le : g.size ≤ g'.size
  encloses : g'.Encloses lo g'.size P

theorem Fills.trans (h : Fills lo P g g') (h' : Fills lo P g' g'') : Fills lo P g g'' :=
  ⟨h.size_le.trans h'.size_le, h'.encloses⟩

/-! ### Linking -/

/-- The block is there and follows block `lo`. -/
def Inside (lo : Nat) (g : BlockGraph) (id : BlockId) : Prop := lo ≤ id.index ∧ id.index < g.size

theorem Inside.mono {id : BlockId} (h : Inside lo g id) (hle : g.size ≤ g'.size) : Inside lo g' id :=
  ⟨h.1, Nat.lt_of_lt_of_le h.2 hle⟩

section Linking

variable {source target first second : BlockId} {last : Option BlockId} (h : g.Encloses lo g.size P)

include h

theorem addBlock_fills {ops : List Operation} (hlo : lo ≤ g.size) (hops : ∀ op ∈ ops, P op) :
    Ensures (addBlock ops) g (fun id g' => Fills lo P g g' ∧ Inside lo g' id) fun _ => True := by
  refine (addBlock_ensures ops fun _ => True).imp (fun id g' h' => ?_) fun _ h' => h'
  obtain ⟨rfl, rfl⟩ := h'
  have hsize : (BlockGraph.mk (g.blocks.push ⟨ops, .opened⟩)).size = g.size + 1 := by simp [size]
  refine ⟨⟨by omega, fun id b hid hlt hb => ?_⟩, hlo, by rw [hsize]; exact Nat.lt_succ_self _⟩
  rw [block?_push] at hb
  split at hb
  · cases hb
    exact ⟨hops, by simp [Exit.targets]⟩
  · have hid' : id.index < g.size := by omega
    obtain ⟨hP, htargets⟩ := h id b hid hid' hb
    exact ⟨hP, fun t ht => ⟨(htargets t ht).1, by rw [hsize]; exact Nat.lt_succ_of_lt (htargets t ht).2⟩⟩

theorem fills_withExit {exit : Exit} (htargets : ∀ t ∈ exit.targets, Inside lo g t) :
    Fills lo P g (g.withExit source exit) := by
  have hsize : (g.withExit source exit).size = g.size := by simp [size, withExit]
  refine ⟨hsize.ge, fun id b hid hlt hb => ?_⟩
  rw [hsize] at hlt ⊢
  by_cases heq : id = source
  · subst heq
    obtain ⟨b', hb'⟩ := Option.isSome_iff_exists.1 (block?_isSome.2 hlt)
    rw [block?_withExit exit hb'] at hb
    cases hb
    exact ⟨(h id b' hid hlt hb').1, htargets⟩
  · rw [block?_withExit_of_ne exit heq] at hb
    exact h id b hid hlt hb

theorem close_fills {exit : Exit} (htargets : ∀ t ∈ exit.targets, Inside lo g t) :
    Ensures (close source exit) g (fun _ g' => Fills lo P g g') fun _ => True := by
  refine ensures_bind (ensures_get (ensures_bind (ensures_lift (fun b _ => ?_) trivial)))
  dsimp only
  split
  · exact ensures_modify (fills_withExit h htargets)
  · exact ensures_bind (ensures_throw trivial)

theorem link_fills (htarget : Inside lo g target) :
    Ensures (link source target) g (fun _ g' => Fills lo P g g') fun _ => True := by
  refine close_fills h fun t ht => ?_
  obtain rfl := List.mem_singleton.1 ht
  exact htarget

theorem follow_fills {context : String} (htarget : Inside lo g target) :
    Ensures (follow context last target) g (fun _ g' => Fills lo P g g') fun _ => True := by
  cases last with
  | none => exact ensures_throw trivial
  | some x => exact link_fills h htarget

theorem chain_fills {fragments : List Fragment} (hentries : ∀ f ∈ fragments, Inside lo g f.entry) :
    Ensures (chain last fragments) g (fun _ g' => Fills lo P g g') fun _ => True := by
  induction fragments generalizing last g with
  | nil => exact ensures_pure ⟨le_refl _, h⟩
  | cons next rest ih =>
    refine ensures_bind ((follow_fills h (hentries next (List.mem_cons_self ..))).imp (fun _ g' h' => ?_) fun _ h' => h')
    have hrest : Ensures (chain next.exit rest) g' (fun _ g'' => Fills lo P g' g'') fun _ => True :=
      ih h'.encloses fun f hf => (hentries f (List.mem_cons_of_mem _ hf)).mono h'.size_le
    exact hrest.imp (fun _ _ h'' => h'.trans h'') fun _ h'' => h''

theorem applyOp_fills {op : Operation} {fragments : List Fragment} (hlo : lo ≤ g.size) (hop : P op)
    (hentries : ∀ f ∈ fragments, Inside lo g f.entry) :
    Ensures (applyOp op fragments) g (fun f g' => Fills lo P g g' ∧ Inside lo g' f.entry) fun _ => True := by
  have hfinish : ∀ (entry own : BlockId) (g' : BlockGraph), Fills lo P g g' → Inside lo g' entry →
      Ensures (if op.isTerminal = true then do
          setExit own .terminal
          return ⟨entry, none⟩
        else return ⟨entry, some own⟩ : Linking Fragment) g'
        (fun f g' => Fills lo P g g' ∧ Inside lo g' f.entry) fun _ => True := by
    intro entry own g' hfills hentry
    split
    · have hexit : Fills lo P g' (g'.withExit own .terminal) :=
        fills_withExit hfills.encloses (by simp [Exit.targets])
      exact ensures_bind (ensures_modify (ensures_pure ⟨hfills.trans hexit, hentry.mono hexit.size_le⟩))
    · exact ensures_pure ⟨hfills, hentry⟩
  unfold applyOp
  refine ensures_bind ((addBlock_fills h hlo (by simpa using hop)).imp (fun own g₁ h₁ => ?_) fun _ h₁ => h₁)
  obtain ⟨hfills₁, hown⟩ := h₁
  cases fragments with
  | nil => exact ensures_bind (ensures_pure (hfinish own own g₁ hfills₁ hown))
  | cons first rest =>
    have hentries₁ : ∀ f ∈ first :: rest, Inside lo g₁ f.entry := fun f hf => (hentries f hf).mono hfills₁.size_le
    refine ensures_bind ((chain_fills hfills₁.encloses fun f hf => hentries₁ f (List.mem_cons_of_mem _ hf)).imp
      (fun last g₂ h₂ => ?_) fun _ h₂ => h₂)
    refine ensures_bind ((follow_fills h₂.encloses (hown.mono h₂.size_le)).imp (fun _ g₃ h₃ => ?_) fun _ h₃ => h₃)
    exact ensures_bind (ensures_pure (hfinish first.entry own g₃ ((hfills₁.trans h₂).trans h₃)
      ((hentries₁ first (List.mem_cons_self ..)).mono (h₂.trans h₃).size_le)))

theorem joinArm_fills {arm : Fragment} (htarget : Inside lo g target) :
    Ensures (Compiler.joinArm arm target) g (fun _ g' => Fills lo P g g') fun _ => True := by
  unfold Compiler.joinArm
  split
  · exact link_fills h htarget
  · exact ensures_pure ⟨le_refl _, h⟩

theorem branch_fills (hfirst : Inside lo g first) (hsecond : Inside lo g second) :
    Ensures (branch source [first, second]) g (fun _ g' => Fills lo P g g') fun _ => True := by
  refine close_fills h fun t ht => ?_
  rcases List.mem_cons.1 ht with rfl | ht
  · exact hfirst
  · obtain rfl := List.mem_singleton.1 ht
    exact hsecond

end Linking

end BlockGraph

/-! ### Calls -/

namespace Compiler

variable {σ α : Type} {c c' c'' : Compiler σ} {own : Operation → Prop} {lo : Nat}

/-- A subroutine of this number waits for its declaration, or it has it, or the declaration is being made. -/
def Awaited (c : Compiler σ) (id : SubroutineId) : Prop :=
  (∃ s ∈ c.pending, s.id = id) ∨ ∃ d, c.definitions[id.number.toNat]? = some d ∧ d.status ≠ .undeclared

/-- An operation has a property, or it calls a subroutine that has its declaration or will have it. -/
def Permits (c : Compiler σ) (own : Operation → Prop) (op : Operation) : Prop :=
  own op ∨ ∃ id, op = .callsub id ∧ c.Awaited id

/-- What follows block `lo` stays enclosed while blocks are added, and subroutines to those that wait. -/
structure Fills (own : Operation → Prop) (lo : Nat) (c c' : Compiler σ) : Prop where
  definitions : c'.definitions = c.definitions
  awaiting : c.pending ⊆ c'.pending
  size_le : c.graph.size ≤ c'.graph.size
  encloses : c'.graph.Encloses lo c'.graph.size (c'.Permits own)

theorem Fills.trans (h : Fills own lo c c') (h' : Fills own lo c' c'') : Fills own lo c c'' :=
  ⟨h'.definitions.trans h.definitions, List.Subset.trans h.awaiting h'.awaiting, h.size_le.trans h'.size_le, h'.encloses⟩

theorem permits_mono (hdefs : c'.definitions = c.definitions) (hpending : c.pending ⊆ c'.pending) {op : Operation}
    (h : c.Permits own op) : c'.Permits own op := by
  refine h.imp_right fun ⟨id, hop, hawaited⟩ => ⟨id, hop, ?_⟩
  rcases hawaited with ⟨s, hs, hid⟩ | hdefined
  · exact .inl ⟨s, hpending hs, hid⟩
  · exact .inr (hdefs ▸ hdefined)

/-- Work on the graph that keeps what follows block `lo` enclosed there. -/
theorem Fills.of_run {action : Linking α} {a : α} (hrun : (onGraph action).run.run c = (.ok a, c'))
    (h : Ensures action c.graph (fun _ g' => BlockGraph.Fills lo (c.Permits own) c.graph g') fun _ => True) :
    Fills own lo c c' := by
  obtain ⟨hc', hfills⟩ := (onGraph_ensures h).of_ok hrun
  have hdefs : c'.definitions = c.definitions := by rw [hc']
  have hpending : c.pending ⊆ c'.pending := by
    rw [hc']
    exact List.Subset.refl _
  exact ⟨hdefs, hpending, hfills.size_le, hfills.encloses.imp fun _ => permits_mono hdefs hpending⟩

/-- The same, where more is known of what the work makes. -/
theorem fills_of_run {action : Linking α} {a : α} {out : α → BlockGraph → Prop}
    (hrun : (onGraph action).run.run c = (.ok a, c')) (h : Ensures action c.graph
      (fun a g' => BlockGraph.Fills lo (c.Permits own) c.graph g' ∧ out a g') fun _ => True) :
    Fills own lo c c' ∧ out a c'.graph :=
  ⟨.of_run hrun (h.imp (fun _ _ h => h.1) fun _ h => h), ((onGraph_ensures h).of_ok hrun).2.2⟩

section Steps

variable (hlo : lo ≤ c.graph.size) (h : c.graph.Encloses lo c.graph.size (c.Permits own))

include hlo h

theorem fragment_fills {ops : List Operation} {f : Fragment} (hops : ∀ op ∈ ops, own op)
    (hrun : (onGraph (fragment ops)).run.run c = (.ok f, c')) : Fills own lo c c' ∧ Inside lo c'.graph f.entry := by
  have hmade : Ensures (fragment ops) c.graph (fun f g' => BlockGraph.Fills lo (c.Permits own) c.graph g' ∧
      Inside lo g' f.entry) fun _ => True :=
    ensures_bind ((addBlock_fills h hlo fun op hop => .inl (hops op hop)).imp (fun _ _ h' => ensures_pure h') fun _ h' => h')
  exact fills_of_run hrun hmade

theorem addJoin_fills {join : BlockId} (hrun : (onGraph (addBlock [])).run.run c = (.ok join, c')) :
    Fills own lo c c' ∧ Inside lo c'.graph join := fills_of_run hrun (addBlock_fills h hlo (by simp))

theorem emit_fills {op : Operation} {fragments : List Fragment} {f : Fragment} (hop : c.Permits own op)
    (hentries : ∀ f ∈ fragments, Inside lo c.graph f.entry) (hrun : (emit op fragments).run.run c = (.ok f, c')) :
    Fills own lo c c' ∧ Inside lo c'.graph f.entry :=
  fills_of_run (emit_eq_ok hrun).2 (applyOp_fills h hlo hop hentries)

end Steps

/-- A subroutine that has been noted waits, unless its declaration is there or is being made. -/
theorem enqueue_fills (h : c.graph.Encloses lo c.graph.size (c.Permits own)) (s : Subroutine) :
    Ensures (enqueue s) c (fun _ c' => Fills own lo c c' ∧ c'.graph = c.graph ∧ c'.Awaited s.id) (fun _ => True) := by
  have hsame : Fills own lo c c := ⟨rfl, List.Subset.refl _, le_refl _, h⟩
  refine ensures_bind (definition_ensures.imp (fun d c₁ h' => ?_) fun _ _ => trivial)
  obtain ⟨rfl, hd⟩ := h'
  have hget : c₁.definitions[s.id.number.toNat]? = some d := (Option.filter_eq_some_iff.1 hd).1
  split
  · refine ensures_modify ?_
    split
    · rename_i hwaits
      obtain ⟨s', hs', hsame'⟩ := List.any_eq_true.1 hwaits
      have hid : s.id = s'.id := by simpa [Subroutine.sameId] using hsame'
      exact ⟨hsame, rfl, .inl ⟨s', hs', hid.symm⟩⟩
    · have hsub : c₁.pending ⊆ c₁.pending ++ [s] := List.subset_append_left _ _
      have hpermits : c₁.graph.Encloses lo c₁.graph.size
          (Permits { c₁ with pending := c₁.pending ++ [s] } own) := by
        refine h.imp fun op hop => permits_mono ?_ ?_ hop
        · rfl
        · exact hsub
      exact ⟨⟨rfl, hsub, le_refl _, hpermits⟩, rfl, .inl ⟨s, by simp, rfl⟩⟩
  · rename_i hstatus
    exact ensures_pure ⟨hsame, rfl, .inr ⟨d, hget, by simp [hstatus]⟩⟩
  · rename_i hstatus
    exact ensures_pure ⟨hsame, rfl, .inr ⟨d, hget, by simp [hstatus]⟩⟩

/-! ### Lowering -/

/-- The operation that an expression becomes by itself has a property.  For a call this is its own matter. -/
def Owns (own : Operation → Prop) : Expr → Prop
  | .int n => own (.int n)
  | .bytes b => own (.byte b)
  | .op o _ _ _ => own o
  | .ret _ | .retNothing => own .ret ∧ own .retsub
  | .seq _ | .ifThen .. | .ifElse .. | .call .. => True

theorem owns_returnOp (h : own .ret ∧ own .retsub) (current : Option Subroutine) : own (returnOp current) := by
  cases current with
  | none => exact h.1
  | some s => exact h.2

theorem everywhere_owns (e : Expr) : e.Everywhere (Owns fun _ => True) :=
  Expr.everywhere_of_within fun q _ => by cases q <;> simp [Owns]

/-- From any state in which what follows block `lo` is enclosed, lowering the expression keeps it so. -/
def FillsWell (σ : Type) (own : Operation → Prop) (lo : Nat) (e : Expr) : Prop :=
  ∀ {c : Compiler σ} {f : Fragment} {c' : Compiler σ}, LowersTo c e f c' → lo ≤ c.graph.size →
    c.graph.Encloses lo c.graph.size (c.Permits own) → Fills own lo c c' ∧ Inside lo c'.graph f.entry

theorem LowersAllTo.fills {es : List Expr} {fs : List Fragment} (hes : ∀ e ∈ es, FillsWell σ own lo e)
    (hrules : LowersAllTo c es fs c') (hlo : lo ≤ c.graph.size)
    (h : c.graph.Encloses lo c.graph.size (c.Permits own)) :
    Fills own lo c c' ∧ ∀ f ∈ fs, Inside lo c'.graph f.entry := by
  induction es generalizing c fs with
  | nil =>
    cases hrules
    exact ⟨⟨rfl, List.Subset.refl _, le_refl _, h⟩, by simp⟩
  | cons e es ih =>
    cases hrules with
    | cons he hrest =>
      obtain ⟨hfills₁, hentry⟩ := hes e (List.mem_cons_self ..) he hlo h
      obtain ⟨hfills₂, hentries⟩ := ih (fun e he => hes e (List.mem_cons_of_mem _ he)) hrest
        (hlo.trans hfills₁.size_le) hfills₁.encloses
      exact ⟨hfills₁.trans hfills₂, List.forall_mem_cons.2 ⟨hentry.mono hfills₂.size_le, hentries⟩⟩

theorem LowersAfterTo.fills {es : List Expr} {before f : Fragment} (hes : ∀ e ∈ es, FillsWell σ own lo e)
    (hrules : LowersAfterTo c before es f c') (hlo : lo ≤ c.graph.size)
    (h : c.graph.Encloses lo c.graph.size (c.Permits own)) (hbefore : Inside lo c.graph before.entry) :
    Fills own lo c c' ∧ Inside lo c'.graph f.entry := by
  induction es generalizing c before with
  | nil =>
    cases hrules
    exact ⟨⟨rfl, List.Subset.refl _, le_refl _, h⟩, hbefore⟩
  | cons e es ih =>
    cases hrules with
    | cons he hseq hrest =>
      obtain ⟨hfills₁, hentry⟩ := hes e (List.mem_cons_self ..) he hlo h
      obtain ⟨-, rfl, -⟩ := (seq_ensures (n := 0) fun _ _ => Nat.zero_le _).of_ok hseq
      have hfills₂ := Fills.of_run hseq (ensures_bind
        ((follow_fills hfills₁.encloses hentry).imp (fun _ _ h' => ensures_pure h') fun _ h' => h'))
      have hfills := hfills₁.trans hfills₂
      obtain ⟨hfills₃, hf⟩ := ih (fun e he => hes e (List.mem_cons_of_mem _ he)) hrest (hlo.trans hfills.size_le)
        hfills.encloses (hbefore.mono hfills.size_le)
      exact ⟨hfills.trans hfills₃, hf⟩

/-- What is lowered stays behind block `lo`: the operations of an expression, and calls of subroutines that are declared in
the end, or wait for it. -/
theorem LowersTo.fills {e : Expr} (howns : e.Everywhere (Owns own)) : FillsWell σ own lo e := by
  intro c f c' hrules hlo h
  induction e using Expr.induction generalizing c f c' with
  | int n =>
    cases hrules with
    | int hmade => exact fragment_fills hlo h (by simpa [Owns] using howns.here) hmade
  | bytes b =>
    cases hrules with
    | bytes hmade => exact fragment_fills hlo h (by simpa [Owns] using howns.here) hmade
  | op o args type returns ih =>
    cases hrules with
    | op hall hemit =>
      obtain ⟨hfills₁, hentries⟩ := hall.fills (fun e he _ _ _ => ih e he (howns.part he)) hlo h
      obtain ⟨hfills₂, hentry⟩ := emit_fills (hlo.trans hfills₁.size_le) hfills₁.encloses (.inl howns.here) hentries hemit
      exact ⟨hfills₁.trans hfills₂, hentry⟩
  | seq items ih =>
    cases hrules with
    | empty hmade => exact fragment_fills hlo h (by simp) hmade
    | @seq e rest _ _ _ _ _ _ hfirst hrest =>
      have hitems : ∀ item ∈ e :: rest, FillsWell σ own lo item := fun item hitem _ _ _ =>
        ih item hitem (howns.part hitem)
      obtain ⟨hfills₁, hentry⟩ := hitems e (List.mem_cons_self ..) hfirst hlo h
      obtain ⟨hfills₂, hf⟩ := hrest.fills (fun item hitem => hitems item (List.mem_cons_of_mem _ hitem))
        (hlo.trans hfills₁.size_le) hfills₁.encloses hentry
      exact ⟨hfills₁.trans hfills₂, hf⟩
  | ifThen cond body ihcond ihbody =>
    cases hrules with
    | ifThen _ _ hc _ hb hjoin harm hbranch =>
      obtain ⟨hfills₁, hentry⟩ := ihcond (howns.part (by simp [Expr.parts])) hc hlo h
      obtain ⟨hstep₂, hbodyentry⟩ :=
        ihbody (howns.part (by simp [Expr.parts])) hb (hlo.trans hfills₁.size_le) hfills₁.encloses
      have hfills₂ := hfills₁.trans hstep₂
      obtain ⟨hstep₃, hinside⟩ := addJoin_fills (hlo.trans hfills₂.size_le) hfills₂.encloses hjoin
      have hstep₄ := Fills.of_run harm (joinArm_fills hstep₃.encloses hinside)
      have hstep₅ := Fills.of_run hbranch (branch_fills hstep₄.encloses
        (hbodyentry.mono (hstep₃.trans hstep₄).size_le) (hinside.mono hstep₄.size_le))
      have hsteps := (hstep₃.trans hstep₄).trans hstep₅
      exact ⟨hfills₂.trans hsteps, hentry.mono (hstep₂.trans hsteps).size_le⟩
  | ifElse cond yes no ihcond ihyes ihno =>
    cases hrules with
    | ifElse _ _ hc _ hy hjoin hyesarm hn hnoarm hbranch =>
      obtain ⟨hfills₁, hentry⟩ := ihcond (howns.part (by simp [Expr.parts])) hc hlo h
      obtain ⟨hstep₂, hyesentry⟩ :=
        ihyes (howns.part (by simp [Expr.parts])) hy (hlo.trans hfills₁.size_le) hfills₁.encloses
      have hfills₂ := hfills₁.trans hstep₂
      obtain ⟨hstep₃, hinside⟩ := addJoin_fills (hlo.trans hfills₂.size_le) hfills₂.encloses hjoin
      have hstep₄ := Fills.of_run hyesarm (joinArm_fills hstep₃.encloses hinside)
      have hfills₄ := (hfills₂.trans hstep₃).trans hstep₄
      obtain ⟨hstep₅, hnoentry⟩ :=
        ihno (howns.part (by simp [Expr.parts])) hn (hlo.trans hfills₄.size_le) hfills₄.encloses
      have hstep₆ := Fills.of_run hnoarm (joinArm_fills hstep₅.encloses (hinside.mono (hstep₄.trans hstep₅).size_le))
      have harms := ((hstep₃.trans hstep₄).trans hstep₅).trans hstep₆
      have hstep₇ := Fills.of_run hbranch (branch_fills harms.encloses (hyesentry.mono harms.size_le)
        (hnoentry.mono hstep₆.size_le))
      have hsteps := harms.trans hstep₇
      exact ⟨hfills₂.trans hsteps, hentry.mono (hstep₂.trans hsteps).size_le⟩
  | ret value ih =>
    cases hrules with
    | ret _ hvalue hemit =>
      obtain ⟨hfills₁, hentry⟩ := ih (howns.part (List.mem_cons_self ..)) hvalue hlo h
      obtain ⟨hfills₂, hf⟩ := emit_fills (hlo.trans hfills₁.size_le) hfills₁.encloses
        (.inl (owns_returnOp howns.here _)) (List.forall_mem_singleton.2 hentry) hemit
      exact ⟨hfills₁.trans hfills₂, hf⟩
  | retNothing =>
    cases hrules with
    | retNothing _ hemit => exact emit_fills hlo h (.inl (owns_returnOp howns.here _)) (by simp) hemit
  | call callee args ih =>
    cases hrules with
    | call _ _ _ hall hnoted hemit =>
      have hargs : ∀ e ∈ args.map Arg.pushed, FillsWell σ own lo e := by
        intro e he
        obtain ⟨a, ha, rfl⟩ := List.mem_map.1 he
        exact ih a ha (howns.part he)
      obtain ⟨hfills₁, hentries⟩ := hall.fills hargs hlo h
      obtain ⟨hstep₂, hgraph, hawaited⟩ := (enqueue_fills hfills₁.encloses callee).of_ok hnoted
      have hfills₂ := hfills₁.trans hstep₂
      obtain ⟨hstep₃, hentry⟩ := emit_fills (hlo.trans hfills₂.size_le) hfills₂.encloses
        (.inr ⟨callee.id, rfl, hawaited⟩) (fun f hf => hgraph ▸ hentries f hf) hemit
      exact ⟨hfills₂.trans hstep₃, hentry⟩

/-- Control does not leave the blocks that lowering adds. -/
theorem lower_encloses {e : Expr} (howns : e.Everywhere (Owns own)) (c : Compiler σ) :
    Ensures (lower e) c (fun f c' => c'.graph.Encloses c.graph.size c'.graph.size (c'.Permits own) ∧
      Inside c.graph.size c'.graph f.entry) fun _ => True := by
  have hnone : c.graph.Encloses c.graph.size c.graph.size (c.Permits own) := by
    intro id b hlo hhi
    omega
  refine (lower_follows e c).imp (fun _ _ hrules => ?_) fun _ _ => trivial
  obtain ⟨hfills, hentry⟩ := hrules.fills howns (le_refl _) hnone
  exact ⟨hfills.encloses, hentry⟩

end Compiler

end ScratchMachine
