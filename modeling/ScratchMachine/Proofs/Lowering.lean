import ScratchMachine.Proofs.LoweringSteps
import ScratchMachine.Proofs.Rendering

/-!
# What lowering does

A lowering that succeeds follows the rules of a relation, which keeps what each step did; what is true of lowered
expressions is proved by induction over these rules.  Lowering adds blocks to the graph and subroutines to those that
wait, and leaves everything else as it was, in particular all blocks that were there before.  The new blocks have the
shape of the expression, and that tells the rest: the fragment lies in them and means what the evaluation of the
expression does.

* `Compiler.LowersTo`: the rules.
* `Compiler.Lowered`: everything that is true of a lowered expression, however the graph grows.
* `Compiler.Rendered`: that, and the shape.
* `Compiler.lower_follows`: lowering follows the rules, and if it fails, then nothing that was there has changed.
* `Compiler.lowersTo_iff`: the rules allow nothing else.
-/

namespace ScratchMachine.Compiler

open Behaviour BlockGraph Fallible Fragment

variable {σ : Type}

/-! ### The rules -/

mutual

/-- By the rules the compiler goes from one state to another, and an expression becomes a fragment. -/
inductive LowersTo {σ : Type} : Compiler σ → Expr → Fragment → Compiler σ → Prop
  | int {n : UInt64} {c c' : Compiler σ} {f : Fragment} : (onGraph (fragment [.int n])).run.run c = (.ok f, c') →
      LowersTo c (.int n) f c'
  | bytes {b : List UInt8} {c c' : Compiler σ} {f : Fragment} : (onGraph (fragment [.byte b])).run.run c = (.ok f, c') →
      LowersTo c (.bytes b) f c'
  | op {o : Operation} {args : List Expr} {type : ValueType} {returns : Bool} {c c₁ c' : Compiler σ}
      {fs : List Fragment} {f : Fragment} : LowersAllTo c args fs c₁ → (emit o fs).run.run c₁ = (.ok f, c') →
      LowersTo c (.op o args type returns) f c'
  | empty {c c' : Compiler σ} {f : Fragment} : (onGraph (fragment [])).run.run c = (.ok f, c') →
      LowersTo c (.seq []) f c'
  | seq {e : Expr} {rest : List Expr} {c c₁ c' : Compiler σ} {first f : Fragment} : checkItems 0 (e :: rest) = .ok () →
      LowersTo c e first c₁ → LowersAfterTo c₁ first rest f c' → LowersTo c (.seq (e :: rest)) f c'
  | ifThen {cond body : Expr} {c c₁ c₂ c₃ c₄ c' : Compiler σ} {fc fb : Fragment} {last join : BlockId} :
      cond.type.require .uint64 = .ok () → body.type = .none →
      LowersTo c cond fc c₁ → conditionEnd fc = .ok last → LowersTo c₁ body fb c₂ →
      (onGraph (addBlock [])).run.run c₂ = (.ok join, c₃) → (onGraph (joinArm fb join)).run.run c₃ = (.ok (), c₄) →
      (onGraph (branch last [fb.entry, join])).run.run c₄ = (.ok (), c') →
      LowersTo c (.ifThen cond body) ⟨fc.entry, some join⟩ c'
  | ifElse {cond yes no : Expr} {c c₁ c₂ c₃ c₄ c₅ c₆ c' : Compiler σ} {fc fy fn : Fragment} {last join : BlockId} :
      cond.type.require .uint64 = .ok () → checkArms yes no = .ok () →
      LowersTo c cond fc c₁ → conditionEnd fc = .ok last → LowersTo c₁ yes fy c₂ →
      (onGraph (addBlock [])).run.run c₂ = (.ok join, c₃) → (onGraph (joinArm fy join)).run.run c₃ = (.ok (), c₄) →
      LowersTo c₄ no fn c₅ → (onGraph (joinArm fn join)).run.run c₅ = (.ok (), c₆) →
      (onGraph (branch last [fy.entry, fn.entry])).run.run c₆ = (.ok (), c') →
      LowersTo c (.ifElse cond yes no)
        ⟨fc.entry, if yes.alwaysReturns && no.alwaysReturns then none else some join⟩ c'
  | ret {value : Expr} {c c₁ c' : Compiler σ} {v f : Fragment} : checkReturn c.current value = .ok () →
      LowersTo c value v c₁ → (emit (returnOp c.current) [v]).run.run c₁ = (.ok f, c') → LowersTo c (.ret value) f c'
  | retNothing {c c' : Compiler σ} {f : Fragment} : checkReturnNone c.current = .ok () →
      (emit (returnOp c.current) []).run.run c = (.ok f, c') → LowersTo c .retNothing f c'
  | call {callee : Subroutine} {args : List Arg} {d : Definition σ} {c c₁ c₂ c' : Compiler σ} {fs : List Fragment}
      {f : Fragment} : c.definition? callee = some d → callee.checkArgs args = .ok () →
      c.options.require (.callsub callee.id) = .ok () → LowersAllTo c (args.map Arg.pushed) fs c₁ →
      (enqueue callee).run.run c₁ = (.ok (), c₂) → (emit (.callsub callee.id) fs).run.run c₂ = (.ok f, c') →
      LowersTo c (.call callee args) f c'

/-- The same for expressions in order. -/
inductive LowersAllTo {σ : Type} : Compiler σ → List Expr → List Fragment → Compiler σ → Prop
  | nil {c : Compiler σ} : LowersAllTo c [] [] c
  | cons {e : Expr} {es : List Expr} {c c₁ c' : Compiler σ} {f : Fragment} {fs : List Fragment} : LowersTo c e f c₁ →
      LowersAllTo c₁ es fs c' → LowersAllTo c (e :: es) (f :: fs) c'

/-- The same for expressions in order, each of which follows what came before. -/
inductive LowersAfterTo {σ : Type} : Compiler σ → Fragment → List Expr → Fragment → Compiler σ → Prop
  | nil {c : Compiler σ} {before : Fragment} : LowersAfterTo c before [] before c
  | cons {e : Expr} {es : List Expr} {c c₁ c₂ c' : Compiler σ} {before next both f : Fragment} : LowersTo c e next c₁ →
      (onGraph (BlockGraph.seq before next)).run.run c₁ = (.ok both, c₂) → LowersAfterTo c₂ both es f c' →
      LowersAfterTo c before (e :: es) f c'

end

/-! ### Lowered expressions -/

/-- The whole of what is true of a lowered expression. -/
structure Lowered (c : Compiler σ) (e : Expr) (f : Fragment) (c' : Compiler σ) : Prop where
  advances : Advances c.graph.size c c'
  /-- The end is a new block, and still open. -/
  isOpen : ∀ x, f.exit = some x → c.graph.size ≤ x.index ∧ c'.graph.IsOpen x
  exit_iff : e.Everywhere Expr.Candid → (f.exit = none ↔ e.alwaysReturns = true)
  /-- However the graph grows, the fragment keeps its shape. -/
  spans : e.Everywhere Expr.Candid → ∀ g, c'.graph.Extends g → f.Spans g c.graph.size c'.graph.size
  /-- However the graph grows, control comes to all operations that were added. -/
  sweeps : e.Everywhere Expr.Candid → ∀ g, c'.graph.Extends g → g.Sweeps c.graph.size c'.graph.size f.entry
  /-- However the graph grows, the fragment means the evaluation of the expression. -/
  means : e.Regular → ∀ g, c'.graph.Extends g → f.Means g fun calls => e.behaviour calls c.current.isSome

theorem Lowered.exit_lt {c c' : Compiler σ} {e : Expr} {f : Fragment} (h : Lowered c e f c') {x : BlockId}
    (hx : f.exit = some x) : x.index < c'.graph.size := by
  obtain ⟨-, b, hb, -⟩ := h.isOpen x hx
  exact index_lt_size hb

/-- A lowered expression has its shape, as long as nothing is linked to it but at its end. -/
structure Rendered (c : Compiler σ) (e : Expr) (f : Fragment) (c' : Compiler σ) : Prop extends Lowered c e f c' where
  renders : ∀ g, c'.graph.Resumes g c.graph.size (f.exit = some ·) →
    Renders g c.current e c.graph.size f c'.graph.size

/-- The shape at the end of lowering tells the rest. -/
theorem Rendered.of_renders {c c' : Compiler σ} {e : Expr} {f : Fragment} (hadvances : Advances c.graph.size c c')
    (hopen : ∀ x, f.exit = some x → c.graph.size ≤ x.index ∧ c'.graph.IsOpen x)
    (hrenders : ∀ g, c'.graph.Resumes g c.graph.size (f.exit = some ·) →
      Renders g c.current e c.graph.size f c'.graph.size) : Rendered c e f c' := by
  have h := hrenders c'.graph (.refl ..)
  exact {
    advances := hadvances
    isOpen := hopen
    exit_iff := h.exit_iff
    spans := fun hcandid _ hg => h.spans_extends hg hcandid
    sweeps := fun hcandid _ hg => h.sweeps_extends hg hcandid
    means := fun hreg _ hg => h.means_extends hg hreg
    renders := hrenders }

/-- What becomes one open block has its shape. -/
theorem fragment_renders {e : Expr} {ops : List Operation}
    (h : ∀ (g : BlockGraph) (current : Option Subroutine) (lo : Nat), g.Holds ⟨lo⟩ ops false →
      Renders g current e lo ⟨⟨lo⟩, some ⟨lo⟩⟩ (lo + 1)) (c : Compiler σ) :
    Ensures (onGraph (fragment ops)) c (fun f c' => Rendered c e f c') fun c' => Advances c.graph.size c c' := by
  have hfragment : Ensures (fragment ops) c.graph
      (fun f g' => f = ⟨⟨c.graph.size⟩, some ⟨c.graph.size⟩⟩ ∧ g' = ⟨c.graph.blocks.push ⟨ops, .opened⟩⟩)
      fun g' => g' = c.graph := by
    refine ensures_bind ((addBlock_ensures ops _).imp (fun id g' h => ensures_pure ?_) fun g' h => h)
    obtain ⟨rfl, hg'⟩ := h
    exact ⟨rfl, hg'⟩
  refine (onGraph_ensures hfragment).imp (fun f c' h' => ?_) fun c' h' => .of_grows h'.1 (h'.2 ▸ .refl _ _)
  obtain ⟨hc', rfl, hg'⟩ := h'
  have hblock : c'.graph.block? ⟨c.graph.size⟩ = some ⟨ops, .opened⟩ := by
    rw [hg', block?_push, if_pos rfl]
  have hsize : c'.graph.size = c.graph.size + 1 := by simp [hg', size]
  refine .of_renders (.of_grows hc' (hg' ▸ grows_push _ _)) (fun x hx => ?_) fun g hg => ?_
  · cases hx
    exact ⟨le_refl _, _, hblock, rfl⟩
  · have hholds : c'.graph.Holds ⟨c.graph.size⟩ ops false := ⟨_, hblock, rfl, by simp⟩
    rw [hsize]
    exact h g c.current _ (hholds.mono hg.extends')

/-- The fragments of expressions that were lowered in order, and their shape. -/
structure RenderedAll (c : Compiler σ) (es : List Expr) (fs : List Fragment) (c' : Compiler σ) : Prop where
  advances : Advances c.graph.size c c'
  exits : ∀ f ∈ fs, ∀ x, f.exit = some x → c.graph.size ≤ x.index ∧ x.index < c'.graph.size
  ends : c'.graph.EndsOpen fs
  renders : ∀ g, c'.graph.Resumes g c.graph.size (fun x => ∃ f ∈ fs, f.exit = some x) →
    RendersAll g c.current es c.graph.size fs c'.graph.size

theorem renderedAll_nil (c : Compiler σ) : RenderedAll c [] [] c :=
  ⟨.refl _ c, by simp, ⟨by simp, .nil⟩, fun _ _ => .nil⟩

theorem Rendered.cons {c c₁ c' : Compiler σ} {e : Expr} {es : List Expr} {f : Fragment} {fs : List Fragment}
    (hf : Rendered c e f c₁) (hfs : RenderedAll c₁ es fs c') : RenderedAll c (e :: es) (f :: fs) c' := by
  have hsize := hf.advances.size_le
  refine ⟨hf.advances.andThen hfs.advances (le_refl _), fun f' hf' x hx => ?_, ⟨fun f' hf' x hx => ?_, ?_⟩,
    fun g hg => ?_⟩
  · rcases List.mem_cons.1 hf' with rfl | hf'
    · exact ⟨(hf.isOpen x hx).1, (hf.exit_lt hx).trans_le hfs.advances.size_le⟩
    · exact (hfs.exits f' hf' x hx).imp_left hsize.trans
  · rcases List.mem_cons.1 hf' with rfl | hf'
    · exact (hf.isOpen x hx).2.congr (hfs.advances.grows.keeps x (hf.exit_lt hx))
    · exact hfs.ends.isOpen f' hf' x hx
  · -- the ends of the others are blocks that came later
    refine List.pairwise_cons.2 ⟨fun f' hf' x hx heq => ?_, hfs.ends.distinct⟩
    have hle := (hfs.exits f' hf' x heq).1
    have hlt := hf.exit_lt hx
    omega
  · have hfirst : c₁.graph.Resumes g c.graph.size (f.exit = some ·) := by
      refine ((hfs.advances.grows.resumes _).trans hg).imp (le_refl _) fun x _ hlt hend => ?_
      obtain hend | ⟨f', hf', hx⟩ := hend
      · exact hend.elim
      · rcases List.mem_cons.1 hf' with rfl | hf'
        · exact hx
        · have hle := (hfs.exits f' hf' x hx).1
          omega
    have hothers : c'.graph.Resumes g c₁.graph.size fun x => ∃ f ∈ fs, f.exit = some x := by
      refine hg.imp hsize fun x hle _ hend => ?_
      obtain ⟨f', hf', hx⟩ := hend
      rcases List.mem_cons.1 hf' with rfl | hf'
      · have hlt := hf.exit_lt hx
        omega
      · exact ⟨f', hf', hx⟩
    have hrest := hfs.renders g hothers
    rw [hf.advances.current_eq] at hrest
    exact .cons (hf.renders g hfirst) hrest

/-- An operation is put behind its operands, of which only the ends are linked. -/
theorem emit_renders {c c₁ c₂ : Compiler σ} {e : Expr} {es : List Expr} {fs : List Fragment} {op : Operation}
    (hall : RenderedAll c es fs c₁) (hadvances : Advances c.graph.size c₁ c₂) (hgraph : c₂.graph = c₁.graph)
    (hshape : ∀ g f hi, RendersAll g c.current es c.graph.size fs hi → g.Applied op fs f ⟨hi⟩ →
      Renders g c.current e c.graph.size f (hi + 1)) :
    Ensures (emit op fs) c₂ (fun f c' => Rendered c e f c') fun c' => Advances c.graph.size c c' := by
  have hadvances₂ := hall.advances.trans hadvances
  have hexits : ∀ f ∈ fs, ∀ x, f.exit = some x → c.graph.size ≤ x.index ∧ x.index < c₂.graph.size := by
    rw [hgraph]
    exact hall.exits
  refine (emit_ensures hadvances₂.size_le hexits).imp (fun f c' h => ?_) fun c' h => hadvances₂.trans h
  obtain ⟨hadvances', happlied, hopen, hsize, hother⟩ := h
  refine .of_renders (hadvances₂.trans hadvances') hopen fun g hg => ?_
  have hstep : c₂.graph.Resumes c'.graph c.graph.size fun x => x = ⟨c₂.graph.size⟩ ∨ ∃ f ∈ fs, f.exit = some x := by
    refine resumes_of_other _ hadvances'.extends' (fun id hid => ?_) _
    rw [not_or] at hid
    exact hother id hid.1 fun f hf hx => hid.2 ⟨f, hf, hx⟩
  -- of the blocks of the operands, only their ends have been linked since
  have hresumes : c₂.graph.Resumes g c.graph.size fun x => ∃ f ∈ fs, f.exit = some x := by
    refine (hstep.trans hg).imp (le_refl _) fun x _ hlt hend => ?_
    obtain (rfl | hend) | hx := hend
    · exact absurd hlt (Nat.lt_irrefl _)
    · exact hend
    · rw [happlied.exit] at hx
      split at hx
      · cases hx
      · cases hx
        exact absurd hlt (Nat.lt_irrefl _)
  rw [hsize]
  rw [hgraph] at hresumes happlied ⊢
  exact hshape g f _ (hall.renders g hresumes) (happlied.mono hg.extends')

/-- The value that is returned is the only operand of the operation that returns it. -/
theorem ret_renders {c c₁ : Compiler σ} {value : Expr} {v : Fragment} (hv : Rendered c value v c₁) :
    Ensures (emit (returnOp c.current) [v]) c₁ (fun f c' => Rendered c (.ret value) f c')
      fun c' => Advances c.graph.size c c' := by
  refine emit_renders (hv.cons (renderedAll_nil c₁)) (.refl _ c₁) rfl fun g f hi hall happlied => ?_
  cases hall with
  | cons hvalue hnil =>
    cases hnil
    exact .ret hvalue happlied

theorem retNothing_renders (c : Compiler σ) :
    Ensures (emit (returnOp c.current) []) c (fun f c' => Rendered c .retNothing f c')
      fun c' => Advances c.graph.size c c' := by
  refine emit_renders (renderedAll_nil c) (.refl _ c) rfl fun g f hi hall happlied => ?_
  cases hall
  exact .retNothing happlied

/-! ### Sequences -/

/-- Expressions that were lowered and linked in order, and their shape. -/
structure RenderedSeq (c : Compiler σ) (items : List Expr) (f : Fragment) (c' : Compiler σ) : Prop where
  advances : Advances c.graph.size c c'
  isOpen : ∀ x, f.exit = some x → c.graph.size ≤ x.index ∧ c'.graph.IsOpen x
  renders : ∀ g, c'.graph.Resumes g c.graph.size (f.exit = some ·) →
    RendersSeq g c.current items c.graph.size f c'.graph.size

theorem Rendered.single {c c' : Compiler σ} {e : Expr} {f : Fragment} (h : Rendered c e f c') :
    RenderedSeq c [e] f c' :=
  ⟨h.advances, h.isOpen, fun g hg => .last (h.renders g hg)⟩

theorem RenderedSeq.next {c c₁ c₂ c' : Compiler σ} {items : List Expr} {before next : Fragment} {e : Expr}
    (hbefore : RenderedSeq c items before c₁) (hnext : Rendered c₁ e next c₂) (hadvances : Advances c.graph.size c₂ c')
    (hlinked : c'.graph.Linked before.exit next.entry)
    (hother : ∀ id, before.exit ≠ some id → c'.graph.block? id = c₂.graph.block? id) :
    RenderedSeq c (items ++ [e]) ⟨before.entry, next.exit⟩ c' := by
  have hend : ∀ x, before.exit = some x → x.index < c₁.graph.size := by
    intro x hx
    obtain ⟨-, b, hb, -⟩ := hbefore.isOpen x hx
    exact index_lt_size hb
  refine ⟨(hbefore.advances.andThen hnext.advances (le_refl _)).trans hadvances, fun x hx => ?_, fun g hg => ?_⟩
  · obtain ⟨hle, hopen⟩ := hnext.isOpen x hx
    refine ⟨le_trans hbefore.advances.size_le hle, hopen.congr (hother x fun heq => ?_)⟩
    have hlt := hend x heq
    omega
  · have hstep : c₂.graph.Resumes c'.graph c.graph.size (before.exit = some ·) :=
      resumes_of_other _ hadvances.extends' hother _
    have hafter := hstep.trans hg
    have hfirst : c₁.graph.Resumes g c.graph.size (before.exit = some ·) := by
      refine ((hnext.advances.grows.resumes _).trans hafter).imp (le_refl _) fun x _ hlt hends => ?_
      obtain hends | hx | hx := hends
      · exact hends.elim
      · exact hx
      · have hle := (hnext.isOpen x hx).1
        omega
    have hsecond : c₂.graph.Resumes g c₁.graph.size (next.exit = some ·) := by
      refine hafter.imp hbefore.advances.size_le fun x hle _ hends => ?_
      obtain hx | hx := hends
      · have hlt := hend x hx
        omega
      · exact hx
    have hsize : c'.graph.size = c₂.graph.size :=
      size_eq_of_other hadvances.extends' hother fun x hx => (hend x hx).trans_le hnext.advances.size_le
    have hlater := hnext.renders g hsecond
    rw [hbefore.advances.current_eq] at hlater
    rw [hsize]
    exact (hbefore.renders g hfirst).concat (hlinked.mono hg.extends') hlater

/-! ### Conditionals -/

section Arms

variable {c c₁ c₂ c₄ c₅ c' : Compiler σ} {g₃ g₆ : BlockGraph} {cond yes no : Expr} {fc fy fn : Fragment} {last : BlockId}

/-- What was lowered and linked is the conditional with one arm. -/
theorem Rendered.ifThen {g₄ : BlockGraph} (hc : Rendered c cond fc c₁) (hy : Rendered c₁ yes fy c₂)
    (hbranching : Branching c₁.graph c₂.graph g₃ g₄ g₄ g₄ c'.graph last fy.exit none) (hlast : fc.exit = some last)
    (hadvances : Advances c.graph.size c c') (hsize : c'.graph.size = c₂.graph.size + 1)
    (hholds : g₃.Holds ⟨c₂.graph.size⟩ [] false) (hopen : g₃.IsOpen ⟨c₂.graph.size⟩)
    (hbranch : c'.graph.Closed last (.branch fy.entry ⟨c₂.graph.size⟩ []))
    (hjoined : ∀ y, fy.exit = some y → c'.graph.Linked fy.exit ⟨c₂.graph.size⟩) :
    Rendered c (.ifThen cond yes) ⟨fc.entry, some ⟨c₂.graph.size⟩⟩ c' := by
  have hlow := hc.advances.size_le
  refine .of_renders hadvances (fun x hx => ?_) fun g hg => ?_
  · cases hx
    exact ⟨hlow.trans hy.advances.size_le, hbranching.join_isOpen (.refl _ _ fun _ => False) hlow hopen id⟩
  · have hends : ∀ x, some (⟨c₂.graph.size⟩ : BlockId) = some x → x = ⟨c₂.graph.size⟩ := fun x hx => by cases hx; rfl
    have hrendersc := hc.renders g (hbranching.resumes_cond hg hends hlast)
    have hrendersy := hy.renders g (hbranching.resumes_yes hg hends hlow)
    rw [hc.advances.current_eq] at hrendersy
    rw [hsize]
    exact .ifThen hrendersc hrendersy hlast (hbranch.mono hg.extends') (fun y hy => (hjoined y hy).mono hg.extends')
      (hholds.mono (hbranching.resumes_from_join hg).extends')

/-- What was lowered and linked is the conditional with two arms. -/
theorem Rendered.ifElse (hc : Rendered c cond fc c₁) (hy : Rendered c₁ yes fy c₂) (hn : Rendered c₄ no fn c₅)
    (hbranching : Branching c₁.graph c₂.graph g₃ c₄.graph c₅.graph g₆ c'.graph last fy.exit fn.exit)
    (hlast : fc.exit = some last) (hcurrent : c₄.current = c.current) (hadvances : Advances c.graph.size c c')
    (hsize : c'.graph.size = c₅.graph.size) (hholds : g₃.Holds ⟨c₂.graph.size⟩ [] false)
    (hopen : g₃.IsOpen ⟨c₂.graph.size⟩) (hbranch : c'.graph.Closed last (.branch fy.entry fn.entry []))
    (hyes : ∀ y, fy.exit = some y → c'.graph.Linked fy.exit ⟨c₂.graph.size⟩)
    (hno : ∀ y, fn.exit = some y → c'.graph.Linked fn.exit ⟨c₂.graph.size⟩) :
    Rendered c (.ifElse cond yes no)
      ⟨fc.entry, if yes.alwaysReturns && no.alwaysReturns then none else some ⟨c₂.graph.size⟩⟩ c' := by
  have hlow := hc.advances.size_le
  have hends : ∀ x, (if (yes.alwaysReturns && no.alwaysReturns) = true then none else some
      (⟨c₂.graph.size⟩ : BlockId)) = some x → x = ⟨c₂.graph.size⟩ := by
    intro x hx
    split at hx
    · cases hx
    · cases hx
      rfl
  refine .of_renders hadvances (fun x hx => ?_) fun g hg => ?_
  · obtain rfl := hends x hx
    exact ⟨hlow.trans hy.advances.size_le, hbranching.join_isOpen (.refl _ _ fun _ => False) hlow hopen id⟩
  · -- if neither arm has an end, then nothing is linked to the block where they would meet
    have hjoin : (yes.alwaysReturns && no.alwaysReturns) = true → g.IsOpen ⟨c₂.graph.size⟩ := fun hreturns =>
      hbranching.join_isOpen hg hlow hopen (by simp [hreturns])
    have hrendersc := hc.renders g (hbranching.resumes_cond hg hends hlast)
    have hrendersy := hy.renders g (hbranching.resumes_yes hg hends hlow)
    have hrendersn := hn.renders g (hbranching.resumes_no hg hends hlow)
    rw [hc.advances.current_eq] at hrendersy
    rw [hcurrent, hbranching.joined_size] at hrendersn
    rw [hsize]
    exact .ifElse hrendersc hrendersy hrendersn hlast (hbranch.mono hg.extends')
      (fun y hy => (hyes y hy).mono hg.extends') (fun y hy => (hno y hy).mono hg.extends')
      (hholds.mono (hbranching.resumes_from_join hg).extends') hjoin

end Arms

theorem rendered_ifThen {cond body : Expr} {c c₁ c₂ c₃ c₄ c' : Compiler σ} {fc fb : Fragment} {last join : BlockId}
    (hc : Rendered c cond fc c₁) (hlast : fc.exit = some last) (hb : Rendered c₁ body fb c₂)
    (hjoin : (onGraph (addBlock [])).run.run c₂ = (.ok join, c₃))
    (harm : (onGraph (joinArm fb join)).run.run c₃ = (.ok (), c₄))
    (hbranch : (onGraph (branch last [fb.entry, join])).run.run c₄ = (.ok (), c')) :
    Rendered c (.ifThen cond body) ⟨fc.entry, some join⟩ c' := by
  have hend : ∀ y, fb.exit = some y → c₁.graph.size ≤ y.index ∧ y.index < c₂.graph.size :=
    fun y hy => ⟨(hb.isOpen y hy).1, hb.exit_lt hy⟩
  obtain ⟨hstep₃, rfl, hholds, hopen, hsize₃⟩ := (addJoin_ensures c₂).of_ok hjoin
  obtain ⟨hstep₄, hjoined, hother₄, hsize₄⟩ :=
    (joinArm_ensures fun y hy => hc.advances.size_le.trans (hend y hy).1).of_ok harm
  obtain ⟨hstep₅, hclosed, hother₅, hsize₅⟩ := (branchArms_ensures (hc.isOpen last hlast).1).of_ok hbranch
  have hadv₂ := hc.advances.andThen hb.advances (le_refl _)
  have hadv₃ := hadv₂.andThen hstep₃ (le_refl _)
  have hbranching : Branching c₁.graph c₂.graph c₃.graph c₄.graph c₄.graph c₄.graph c'.graph last fb.exit none := {
    yes := hb.advances.grows
    join := hstep₃.grows
    yesJoined := resumes_of_other _ hstep₄.extends' hother₄ 0
    no := .refl _ _
    noJoined := .refl _ _ _
    branched := resumes_of_other _ hstep₅.extends' hother₅ 0
    joined_size := hsize₄.trans hsize₃
    last_lt := hc.exit_lt hlast
    yesEnd_within := hend
    noEnd_within := by simp }
  exact hc.ifThen hb hbranching hlast ((hadv₃.trans hstep₄).trans hstep₅) (hsize₅.trans (hsize₄.trans hsize₃)) hholds
    hopen hclosed fun y hy => (hjoined y hy).mono hstep₅.extends'

theorem rendered_ifElse {cond yes no : Expr} {c c₁ c₂ c₃ c₄ c₅ c₆ c' : Compiler σ} {fc fy fn : Fragment}
    {last join : BlockId} (hc : Rendered c cond fc c₁) (hlast : fc.exit = some last) (hy : Rendered c₁ yes fy c₂)
    (hjoin : (onGraph (addBlock [])).run.run c₂ = (.ok join, c₃))
    (hyesarm : (onGraph (joinArm fy join)).run.run c₃ = (.ok (), c₄)) (hn : Rendered c₄ no fn c₅)
    (hnoarm : (onGraph (joinArm fn join)).run.run c₅ = (.ok (), c₆))
    (hbranch : (onGraph (branch last [fy.entry, fn.entry])).run.run c₆ = (.ok (), c')) :
    Rendered c (.ifElse cond yes no)
      ⟨fc.entry, if yes.alwaysReturns && no.alwaysReturns then none else some join⟩ c' := by
  have hyesend : ∀ y, fy.exit = some y → c₁.graph.size ≤ y.index ∧ y.index < c₂.graph.size :=
    fun y hy' => ⟨(hy.isOpen y hy').1, hy.exit_lt hy'⟩
  obtain ⟨hstep₃, rfl, hholds, hopen, hsize₃⟩ := (addJoin_ensures c₂).of_ok hjoin
  obtain ⟨hstep₄, hjoinedyes, hother₄, hsize₄⟩ :=
    (joinArm_ensures fun y hy => hc.advances.size_le.trans (hyesend y hy).1).of_ok hyesarm
  rw [hsize₃] at hsize₄
  have hadv₂ := hc.advances.andThen hy.advances (le_refl _)
  have hadv₄ := (hadv₂.andThen hstep₃ (le_refl _)).trans hstep₄
  have hnoend : ∀ y, fn.exit = some y → c₂.graph.size < y.index ∧ y.index < c₅.graph.size := by
    intro y hy'
    have hle := (hn.isOpen y hy').1
    exact ⟨by omega, hn.exit_lt hy'⟩
  obtain ⟨hstep₆, hjoinedno, hother₆, hsize₆⟩ :=
    (joinArm_ensures fun y hy => hadv₂.size_le.trans (hnoend y hy).1.le).of_ok hnoarm
  obtain ⟨hstep₇, hclosed, hother₇, hsize₇⟩ := (branchArms_ensures (hc.isOpen last hlast).1).of_ok hbranch
  have hadv₆ := (hadv₄.andThen hn.advances (le_refl _)).trans hstep₆
  have hbranching : Branching c₁.graph c₂.graph c₃.graph c₄.graph c₅.graph c₆.graph c'.graph last fy.exit fn.exit := {
    yes := hy.advances.grows
    join := hstep₃.grows
    yesJoined := resumes_of_other _ hstep₄.extends' hother₄ 0
    no := hn.advances.grows
    noJoined := resumes_of_other _ hstep₆.extends' hother₆ 0
    branched := resumes_of_other _ hstep₇.extends' hother₇ 0
    joined_size := hsize₄
    last_lt := hc.exit_lt hlast
    yesEnd_within := hyesend
    noEnd_within := hnoend }
  have hext₄ := hn.advances.extends'.trans (hstep₆.extends'.trans hstep₇.extends')
  exact hc.ifElse hy hn hbranching hlast hadv₄.current_eq (hadv₆.trans hstep₇) (hsize₇.trans hsize₆) hholds hopen
    hclosed (fun y hy => (hjoinedyes y hy).mono hext₄) fun y hy => (hjoinedno y hy).mono hstep₇.extends'

/-! ### By the rules -/

theorem LowersAllTo.rendered {es : List Expr} (hes : ∀ e ∈ es, ∀ {c f c'}, LowersTo c e f c' → Rendered (σ := σ) c e f c')
    {c c' : Compiler σ} {fs : List Fragment} (h : LowersAllTo c es fs c') : RenderedAll c es fs c' := by
  induction es generalizing c fs with
  | nil =>
    cases h
    exact renderedAll_nil _
  | cons e es ih =>
    cases h with
    | cons he hrest =>
      exact (hes e (List.mem_cons_self ..) he).cons (ih (fun e he => hes e (List.mem_cons_of_mem _ he)) hrest)

theorem LowersAfterTo.rendered {es : List Expr}
    (hes : ∀ e ∈ es, ∀ {c f c'}, LowersTo c e f c' → Rendered (σ := σ) c e f c') {c c₁ c' : Compiler σ}
    {items : List Expr} {before f : Fragment} (hbefore : RenderedSeq c items before c₁)
    (h : LowersAfterTo c₁ before es f c') : RenderedSeq c (items ++ es) f c' := by
  induction es generalizing c₁ items before with
  | nil =>
    cases h
    rwa [List.append_nil]
  | cons e es ih =>
    cases h with
    | cons he hseq hrest =>
      have hnext := hes e (List.mem_cons_self ..) he
      obtain ⟨hadvances, rfl, hlinked, hother⟩ := (seq_ensures fun x hx => (hbefore.isOpen x hx).1).of_ok hseq
      have hboth := hbefore.next hnext hadvances hlinked hother
      have hall := ih (fun e he => hes e (List.mem_cons_of_mem _ he)) hboth hrest
      rwa [List.append_assoc] at hall

/-- An expression that is lowered has its shape. -/
theorem LowersTo.rendered {e : Expr} {c c' : Compiler σ} {f : Fragment} (h : LowersTo c e f c') : Rendered c e f c' := by
  induction e using Expr.induction generalizing c f c' with
  | int n =>
    cases h with
    | int hmade => exact (fragment_renders (fun _ _ _ => .int) c).of_ok hmade
  | bytes b =>
    cases h with
    | bytes hmade => exact (fragment_renders (fun _ _ _ => .bytes) c).of_ok hmade
  | op o args type returns ih =>
    cases h with
    | op hall hemit =>
      exact (emit_renders (hall.rendered fun e he => ih e he) (.refl _ _) rfl fun _ _ _ => .op).of_ok hemit
  | seq items ih =>
    cases h with
    | empty hmade => exact (fragment_renders (fun _ _ _ => .empty) c).of_ok hmade
    | seq _ hfirst hrest =>
      have hseq := hrest.rendered (fun e he => ih e (List.mem_cons_of_mem _ he))
        (ih _ (List.mem_cons_self ..) hfirst).single
      exact .of_renders hseq.advances hseq.isOpen fun g hg => .seq (hseq.renders g hg)
  | ifThen cond body ihcond ihbody =>
    cases h with
    | ifThen _ _ hcond hlast hbody hjoin harm hbranch =>
      exact rendered_ifThen (ihcond hcond) (conditionEnd_eq_ok hlast) (ihbody hbody) hjoin harm hbranch
  | ifElse cond yes no ihcond ihyes ihno =>
    cases h with
    | ifElse _ _ hcond hlast hyes hjoin hyesarm hno hnoarm hbranch =>
      exact rendered_ifElse (ihcond hcond) (conditionEnd_eq_ok hlast) (ihyes hyes) hjoin hyesarm (ihno hno) hnoarm hbranch
  | ret value ih =>
    cases h with
    | ret _ hvalue hemit =>
      exact (ret_renders (ih hvalue)).of_ok hemit
  | retNothing =>
    cases h with
    | retNothing _ hemit => exact (retNothing_renders c).of_ok hemit
  | call callee args ih =>
    cases h with
    | call _ _ _ hall hnoted hemit =>
      have hrendered := hall.rendered fun e he => by
        obtain ⟨a, ha, rfl⟩ := List.mem_map.1 he
        exact ih a ha
      -- that the callee is noted leaves the graph as it is
      obtain ⟨hadvances, hgraph⟩ := (enqueue_ensures c.graph.size).of_ok hnoted
      exact (emit_renders hrendered hadvances hgraph fun _ _ _ => .call).of_ok hemit

/-! ### Lowering follows the rules -/

/-- From any state, lowering the expression follows the rules; if it fails, it has changed nothing that was there. -/
def FollowsRules (σ : Type) (e : Expr) : Prop :=
  ∀ c : Compiler σ, Ensures (lower e) c (fun f c' => LowersTo c e f c') fun c' => Advances c.graph.size c c'

/-- What a step did is part of the rules. -/
theorem ensures_step {α : Type} {x : Compiling σ α} {c : Compiler σ} {ok : α → Compiler σ → Prop}
    {failed : Compiler σ → Prop} (h : Ensures x c ok failed) :
    Ensures x c (fun a c' => x.run.run c = (.ok a, c') ∧ ok a c') failed :=
  ((ensures_run x c).and h).imp (fun _ _ h => h) fun _ h => h.2

theorem lowerArgs_eq (args : List Arg) : lowerArgs (σ := σ) args = lowerAll (args.map Arg.pushed) := by
  induction args with
  | nil => simp only [lowerArgs, List.map_nil, lowerAll]
  | cons a rest ih =>
    have ha : lowerArg (σ := σ) a = lower a.pushed := by
      cases a with
      | value e => simp only [lowerArg, Arg.pushed]
      | ref v =>
        simp only [lowerArg, Arg.pushed]
        exact lowerIndex_eq v
    simp only [lowerArgs, List.map_cons, lowerAll, ha, ih]

theorem lowerAll_follows {es : List Expr} (hes : ∀ e ∈ es, FollowsRules σ e) (c : Compiler σ) :
    Ensures (lowerAll es) c (fun fs c' => LowersAllTo c es fs c') fun c' => Advances c.graph.size c c' := by
  induction es generalizing c with
  | nil =>
    rw [lowerAll]
    exact ensures_pure .nil
  | cons e es ih =>
    rw [lowerAll]
    refine ensures_bind ((hes e (List.mem_cons_self ..) c).imp (fun f c₁ hf => ?_) fun c' h => h)
    exact ensures_bind ((ih (fun e he => hes e (List.mem_cons_of_mem _ he)) c₁).imp
      (fun fs c' hfs => ensures_pure (.cons hf hfs)) fun c' h => hf.rendered.advances.andThen h (le_refl _))

theorem lowerAfter_follows {es : List Expr} (hes : ∀ e ∈ es, FollowsRules σ e) {n : Nat} {c : Compiler σ}
    {before : Fragment} (hn : n ≤ c.graph.size) (hbefore : ∀ x, before.exit = some x → n ≤ x.index) :
    Ensures (lowerAfter before es) c (fun f c' => LowersAfterTo c before es f c') fun c' => Advances n c c' := by
  induction es generalizing c before with
  | nil =>
    rw [lowerAfter]
    exact ensures_pure .nil
  | cons e es ih =>
    rw [lowerAfter]
    refine ensures_bind ((hes e (List.mem_cons_self ..) c).imp (fun next c₁ he => ?_) fun c' h => h.mono hn)
    have hnext := he.rendered
    have hadv₁ := hnext.advances.mono hn
    refine ensures_bind ((ensures_step (seq_ensures hbefore)).imp (fun both c₂ h₂ => ?_) fun c' h => hadv₁.trans h)
    obtain ⟨hseq, hstep, rfl, -⟩ := h₂
    have hadv₂ := hadv₁.trans hstep
    have hboth : ∀ x, (Fragment.mk before.entry next.exit).exit = some x → n ≤ x.index := fun x hx =>
      hn.trans (hnext.isOpen x hx).1
    have hrest := ih (fun e he => hes e (List.mem_cons_of_mem _ he)) (hn.trans hadv₂.size_le) hboth
    exact hrest.imp (fun f c' h => .cons he hseq h) fun c' h => hadv₂.trans h

theorem follows_ifThen {cond body : Expr} (hcond : FollowsRules σ cond) (hbody : FollowsRules σ body) :
    FollowsRules σ (.ifThen cond body) := by
  intro c
  rw [lower]
  refine ensures_bind (ensures_lift (fun _ htype => ?_) (.refl _ c))
  dsimp only
  by_cases hnone : body.type ≠ .none
  · rw [if_pos hnone]
    exact ensures_bind (ensures_throw (.refl _ c))
  rw [if_neg hnone]
  refine ensures_bind ((hcond c).imp (fun fc c₁ hc => ?_) fun c' h => h)
  have hrendered := hc.rendered
  refine ensures_bind (ensures_lift (fun last hlast => ?_) hrendered.advances)
  have hlow := (hrendered.isOpen last (conditionEnd_eq_ok hlast)).1
  refine ensures_bind ((hbody c₁).imp (fun fb c₂ hb => ?_) fun c' h => hrendered.advances.andThen h (le_refl _))
  have hadv₂ := hrendered.advances.andThen hb.rendered.advances (le_refl _)
  refine ensures_bind ((ensures_step (addJoin_ensures c₂)).imp (fun join c₃ h₃ => ?_)
    fun c' h => hadv₂.andThen h (le_refl _))
  have hadv₃ := hadv₂.andThen h₃.2.1 (le_refl _)
  have hend : ∀ y, fb.exit = some y → c.graph.size ≤ y.index := fun y hy =>
    hrendered.advances.size_le.trans (hb.rendered.isOpen y hy).1
  refine ensures_bind ((ensures_step (joinArm_ensures hend)).imp (fun _ c₄ h₄ => ?_) fun c' h => hadv₃.trans h)
  have hadv₄ := hadv₃.trans h₄.2.1
  refine ensures_bind ((ensures_step (branchArms_ensures hlow)).imp (fun _ c₅ h₅ => ensures_pure ?_)
    fun c' h => hadv₄.trans h)
  exact .ifThen htype (not_not.1 hnone) hc hlast hb h₃.1 h₄.1 h₅.1

theorem follows_ifElse {cond yes no : Expr} (hcond : FollowsRules σ cond) (hyes : FollowsRules σ yes)
    (hno : FollowsRules σ no) : FollowsRules σ (.ifElse cond yes no) := by
  intro c
  rw [lower]
  refine ensures_bind (ensures_lift (fun _ htype => ?_) (.refl _ c))
  refine ensures_bind (ensures_lift (fun _ harms => ?_) (.refl _ c))
  refine ensures_bind ((hcond c).imp (fun fc c₁ hc => ?_) fun c' h => h)
  have hrendered := hc.rendered
  refine ensures_bind (ensures_lift (fun last hlast => ?_) hrendered.advances)
  have hlow := (hrendered.isOpen last (conditionEnd_eq_ok hlast)).1
  refine ensures_bind ((hyes c₁).imp (fun fy c₂ hy => ?_) fun c' h => hrendered.advances.andThen h (le_refl _))
  have hadv₂ := hrendered.advances.andThen hy.rendered.advances (le_refl _)
  refine ensures_bind ((ensures_step (addJoin_ensures c₂)).imp (fun join c₃ h₃ => ?_)
    fun c' h => hadv₂.andThen h (le_refl _))
  have hadv₃ := hadv₂.andThen h₃.2.1 (le_refl _)
  have hyesend : ∀ y, fy.exit = some y → c.graph.size ≤ y.index := fun y hy' =>
    hrendered.advances.size_le.trans (hy.rendered.isOpen y hy').1
  refine ensures_bind ((ensures_step (joinArm_ensures hyesend)).imp (fun _ c₄ h₄ => ?_) fun c' h => hadv₃.trans h)
  have hadv₄ := hadv₃.trans h₄.2.1
  refine ensures_bind ((hno c₄).imp (fun fn c₅ hn => ?_) fun c' h => hadv₄.andThen h (le_refl _))
  have hadv₅ := hadv₄.andThen hn.rendered.advances (le_refl _)
  have hnoend : ∀ y, fn.exit = some y → c.graph.size ≤ y.index := fun y hy' =>
    hadv₄.size_le.trans (hn.rendered.isOpen y hy').1
  refine ensures_bind ((ensures_step (joinArm_ensures hnoend)).imp (fun _ c₆ h₆ => ?_) fun c' h => hadv₅.trans h)
  have hadv₆ := hadv₅.trans h₆.2.1
  refine ensures_bind ((ensures_step (branchArms_ensures hlow)).imp (fun _ c₇ h₇ => ensures_pure ?_)
    fun c' h => hadv₆.trans h)
  exact .ifElse htype harms hc hlast hy h₃.1 h₄.1 hn h₆.1 h₇.1

theorem follows_call {callee : Subroutine} {args : List Arg} (ih : ∀ a ∈ args, FollowsRules σ a.pushed) :
    FollowsRules σ (.call callee args) := by
  intro c
  rw [lower, lowerArgs_eq]
  refine ensures_bind (ensures_bind (definition_ensures.imp (fun d c₁ h => ensures_pure ?_) fun c' h => ?_))
  swap
  · subst h
    exact .refl _ _
  obtain ⟨rfl, hdefined⟩ := h
  refine ensures_bind (ensures_lift (fun _ hargs => ?_) (.refl _ c₁))
  refine ensures_bind (ensures_get (ensures_bind (ensures_lift (fun _ hrequire => ?_) (.refl _ c₁))))
  have hpushed : ∀ e ∈ args.map Arg.pushed, FollowsRules σ e := by
    intro e he
    obtain ⟨a, ha, rfl⟩ := List.mem_map.1 he
    exact ih a ha
  refine ensures_bind ((lowerAll_follows hpushed c₁).imp (fun fs c₂ hall => ?_) fun c' h => h)
  have hrendered := hall.rendered fun e _ => LowersTo.rendered
  refine ensures_bind ((ensures_step (enqueue_ensures c₁.graph.size)).imp (fun _ c₃ h₃ => ?_)
    fun c' h => hrendered.advances.trans h)
  obtain ⟨hnoted, hadvances, hgraph⟩ := h₃
  exact (ensures_step (emit_renders hrendered hadvances hgraph fun _ _ _ => .call)).imp
    (fun f c' h => .call hdefined hargs hrequire hall hnoted h.1) fun c' h => h

/-- Whatever is lowered, it is by the rules. -/
theorem lower_follows (e : Expr) : FollowsRules σ e := by
  induction e using Expr.induction with
  | int n =>
    intro c
    rw [lower]
    exact (ensures_step (fragment_renders (fun _ _ _ => .int) c)).imp (fun _ _ h => .int h.1) fun _ h => h
  | bytes b =>
    intro c
    rw [lower]
    exact (ensures_step (fragment_renders (fun _ _ _ => .bytes) c)).imp (fun _ _ h => .bytes h.1) fun _ h => h
  | op o args type returns ih =>
    intro c
    rw [lower]
    refine ensures_bind ((lowerAll_follows ih c).imp (fun fs c₁ hall => ?_) fun c' h => h)
    have hrendered := hall.rendered fun e _ => LowersTo.rendered
    exact (ensures_step (emit_renders (e := .op o args type returns) hrendered (.refl _ c₁) rfl fun _ _ _ => .op)).imp
      (fun f c' h => .op hall h.1) fun c' h => h
  | seq items ih =>
    intro c
    cases items with
    | nil =>
      rw [lower]
      exact (ensures_step (fragment_renders (fun _ _ _ => .empty) c)).imp (fun _ _ h => .empty h.1) fun _ h => h
    | cons e rest =>
      rw [lower]
      refine ensures_bind (ensures_lift (fun _ hcheck => ?_) (.refl _ c))
      refine ensures_bind ((ih e (List.mem_cons_self ..) c).imp (fun first c₁ hfirst => ?_) fun c' h => h)
      have hrendered := hfirst.rendered
      exact (lowerAfter_follows (fun e he => ih e (List.mem_cons_of_mem _ he)) hrendered.advances.size_le
        fun x hx => (hrendered.isOpen x hx).1).imp (fun f c' hrest => .seq hcheck hfirst hrest)
        fun c' h => hrendered.advances.trans h
  | ifThen cond body ihcond ihbody => exact follows_ifThen ihcond ihbody
  | ifElse cond yes no ihcond ihyes ihno => exact follows_ifElse ihcond ihyes ihno
  | ret value ih =>
    intro c
    rw [lower]
    refine ensures_bind (ensures_get (ensures_bind (ensures_lift (fun _ hcheck => ?_) (.refl _ c))))
    refine ensures_bind ((ih c).imp (fun v c₁ hv => ?_) fun c' h => h)
    exact (ensures_step (ret_renders hv.rendered)).imp (fun f c' h => .ret hcheck hv h.1) fun c' h => h
  | retNothing =>
    intro c
    rw [lower]
    refine ensures_bind (ensures_get (ensures_bind (ensures_lift (fun _ hcheck => ?_) (.refl _ c))))
    exact (ensures_step (retNothing_renders c)).imp (fun f c' h => .retNothing hcheck h.1) fun c' h => h
  | call callee args ih => exact follows_call ih

/-! ### The rules are those of lowering -/

section Rules

variable {c c' : Compiler σ}

theorem LowersAllTo.run {es : List Expr} {fs : List Fragment}
    (hes : ∀ e ∈ es, ∀ {c f c'}, LowersTo (σ := σ) c e f c' → (lower e).run.run c = (.ok f, c'))
    (h : LowersAllTo c es fs c') : (lowerAll es).run.run c = (.ok fs, c') := by
  induction es generalizing c fs with
  | nil =>
    cases h
    rw [lowerAll]
    rfl
  | cons e es ih =>
    cases h with
    | cons he hrest =>
      rw [lowerAll, run_bind_of_ok (hes e (List.mem_cons_self ..) he),
        run_bind_of_ok (ih (fun e he => hes e (List.mem_cons_of_mem _ he)) hrest)]
      rfl

theorem LowersAfterTo.run {es : List Expr} {before f : Fragment}
    (hes : ∀ e ∈ es, ∀ {c f c'}, LowersTo (σ := σ) c e f c' → (lower e).run.run c = (.ok f, c'))
    (h : LowersAfterTo c before es f c') : (lowerAfter before es).run.run c = (.ok f, c') := by
  induction es generalizing c before with
  | nil =>
    cases h
    rw [lowerAfter]
    rfl
  | cons e es ih =>
    cases h with
    | cons he hseq hrest =>
      rw [lowerAfter, run_bind_of_ok (hes e (List.mem_cons_self ..) he), run_bind_of_ok hseq]
      exact ih (fun e he => hes e (List.mem_cons_of_mem _ he)) hrest

theorem LowersTo.run {e : Expr} {f : Fragment} (h : LowersTo c e f c') : (lower e).run.run c = (.ok f, c') := by
  induction e using Expr.induction generalizing c f c' with
  | int n | bytes b =>
    cases h
    rw [lower]
    assumption
  | op o args type returns ih =>
    cases h with
    | op hall hemit => rw [lower, run_bind_of_ok (hall.run fun e he => ih e he), hemit]
  | seq items ih =>
    cases h with
    | empty hmade => rw [lower, hmade]
    | seq hcheck hfirst hrest =>
      rw [lower, run_lift_bind_of_ok hcheck, run_bind_of_ok (ih _ (List.mem_cons_self ..) hfirst)]
      exact hrest.run fun e he => ih e (List.mem_cons_of_mem _ he)
  | ifThen cond body ihcond ihbody =>
    cases h with
    | ifThen htype hnone hc hlast hb hjoin harm hbranch =>
      rw [lower, run_lift_bind_of_ok htype]
      dsimp only
      rw [if_neg (not_not.2 hnone)]
      rw [run_bind_of_ok (ihcond hc), run_lift_bind_of_ok hlast, run_bind_of_ok (ihbody hb), run_bind_of_ok hjoin,
        run_bind_of_ok harm, run_bind_of_ok hbranch]
      rfl
  | ifElse cond yes no ihcond ihyes ihno =>
    cases h with
    | ifElse htype harms hc hlast hyes hjoin hyesarm hno hnoarm hbranch =>
      rw [lower, run_lift_bind_of_ok htype, run_lift_bind_of_ok harms, run_bind_of_ok (ihcond hc),
        run_lift_bind_of_ok hlast, run_bind_of_ok (ihyes hyes), run_bind_of_ok hjoin, run_bind_of_ok hyesarm,
        run_bind_of_ok (ihno hno), run_bind_of_ok hnoarm, run_bind_of_ok hbranch]
      rfl
  | ret value ih =>
    cases h with
    | ret hcheck hvalue hemit =>
      rw [lower, run_bind_of_ok (run_get c), run_lift_bind_of_ok hcheck, run_bind_of_ok (ih hvalue), hemit]
  | retNothing =>
    cases h with
    | retNothing hcheck hemit => rw [lower, run_bind_of_ok (run_get c), run_lift_bind_of_ok hcheck, hemit]
  | call callee args ih =>
    cases h with
    | call hdefined hargs hrequire hall hnoted hemit =>
      have hfound : (discard (definition callee)).run.run c = (.ok (), c) := by
        have hrun := run_definition callee c
        rw [hdefined] at hrun
        exact run_bind_of_ok hrun
      have hpushed := hall.run (List.forall_mem_map.2 fun a ha => ih a ha)
      rw [lower, lowerArgs_eq, run_bind_of_ok hfound, run_lift_bind_of_ok hargs, run_bind_of_ok (run_get c),
        run_lift_bind_of_ok hrequire, run_bind_of_ok hpushed, run_bind_of_ok hnoted, hemit]

/-- An expression is lowered by the rules, and in no other way. -/
theorem lowersTo_iff {e : Expr} {f : Fragment} : LowersTo c e f c' ↔ (lower e).run.run c = (.ok f, c') :=
  ⟨LowersTo.run, fun h => (lower_follows e c).of_ok h⟩

theorem LowersTo.of_run {e : Expr} {f : Fragment} (h : (lower e).run.run c = (.ok f, c')) : LowersTo c e f c' :=
  lowersTo_iff.2 h

end Rules

/-! ### What is true of lowered expressions -/

theorem lower_renders (e : Expr) (c : Compiler σ) :
    Ensures (lower e) c (fun f c' => Rendered c e f c') fun c' => Advances c.graph.size c c' :=
  (lower_follows e c).imp (fun _ _ h => h.rendered) fun _ h => h

theorem lower_ensures (e : Expr) (c : Compiler σ) :
    Ensures (lower e) c (fun f c' => Lowered c e f c') fun c' => Advances c.graph.size c c' :=
  (lower_renders e c).imp (fun _ _ h => h.toLowered) fun _ h => h

theorem lowerAll_ensures (es : List Expr) (c : Compiler σ) :
    Ensures (lowerAll es) c (fun fs c' => RenderedAll c es fs c') fun c' => Advances c.graph.size c c' :=
  (lowerAll_follows (fun e _ => lower_follows e) c).imp (fun _ _ h => h.rendered fun _ _ => LowersTo.rendered) fun _ h => h

end ScratchMachine.Compiler
