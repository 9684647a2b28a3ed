import ScratchMachine.Compiler.Lowering
import ScratchMachine.Proofs.Coverage
import ScratchMachine.Proofs.Fragments

/-!
# The shape that a lowered tree has in the graph

A lowered tree has the blocks with numbers from one bound to another, in the order of its parts, and later nothing is
linked to these blocks but at the end of the fragment.  So the graph of a whole program still shows of every part how it
was linked, and what is to be said of its blocks can be proved by induction over the tree.

* `BlockGraph.Resumes`: a graph grew, and only some ends were linked.
* `BlockGraph.Branching`: the graphs in the course of lowering a conditional.
* `Compiler.Renders`: how the blocks of a tree are linked, with one rule for each rule of lowering.
* `Compiler.Renders.spans_extends`, `Compiler.Renders.sweeps_extends`: which blocks control comes to, however the graph
  grows.
* `Compiler.Renders.means_extends`: the fragment of a tree means its evaluation, however the graph grows.
-/

namespace ScratchMachine

open Behaviour BlockGraph Fragment

namespace BlockGraph

/-! ### Blocks that stay open -/

/-- A graph grew out of an earlier one, and of the blocks with numbers from `lo` those that were open still are, but for
some ends. -/
structure Resumes (h g : BlockGraph) (lo : Nat) (ends : BlockId → Prop) : Prop where
  extends' : h.Extends g
  stays : ∀ id, lo ≤ id.index → ¬ ends id → h.IsOpen id → g.IsOpen id

variable {g h k : BlockGraph} {lo lo' n : Nat} {ends ends' : BlockId → Prop}

theorem Resumes.refl (g : BlockGraph) (lo : Nat) (ends : BlockId → Prop) : g.Resumes g lo ends :=
  ⟨.refl g, fun _ _ _ => id⟩

theorem Resumes.trans (hgh : g.Resumes h lo ends) (hhk : h.Resumes k lo ends') :
    g.Resumes k lo fun id => ends id ∨ ends' id := by
  refine ⟨hgh.extends'.trans hhk.extends', fun id hid hends hopen => ?_⟩
  rw [not_or] at hends
  exact hhk.stays id hid hends.2 (hgh.stays id hid hends.1 hopen)

/-- It is enough to know the ends among the blocks of the earlier graph. -/
theorem Resumes.imp (h : g.Resumes k lo ends) (hlo : lo ≤ lo')
    (himp : ∀ id, lo' ≤ id.index → id.index < g.size → ends id → ends' id) : g.Resumes k lo' ends' := by
  refine ⟨h.extends', fun id hid hends hopen => h.stays id (hlo.trans hid) (fun hend => hends ?_) hopen⟩
  obtain ⟨b, hb, -⟩ := hopen
  exact himp id hid (index_lt_size hb) hend

theorem Resumes.above (h : g.Resumes k lo ends) (hlo : lo ≤ lo') : g.Resumes k lo' ends := h.imp hlo fun _ _ _ => id

theorem Grows.resumes (h : Grows g.size g k) (lo : Nat) : g.Resumes k lo fun _ => False := by
  refine ⟨h.extends', fun id _ _ hopen => ?_⟩
  obtain ⟨b, hb, hexit⟩ := hopen
  exact ⟨b, (h.keeps id (index_lt_size hb)).trans hb, hexit⟩

/-- Only some ends have changed. -/
theorem resumes_of_other (ends : BlockId → Prop) (hext : g.Extends k)
    (hother : ∀ id, ¬ ends id → k.block? id = g.block? id) (lo : Nat) : g.Resumes k lo ends :=
  ⟨hext, fun id _ hends hopen => hopen.congr (hother id hends)⟩

end BlockGraph

/-! ### The graphs of a conditional -/

/-- The graphs in the course of lowering a conditional: past the condition, past the first arm, with the block where the
arms meet, with the first arm linked to it, past the second arm, with that linked to it, and with the branch. -/
structure BlockGraph.Branching (g₁ g₂ g₃ g₄ g₅ g₆ g₇ : BlockGraph) (last : BlockId)
    (yesEnd noEnd : Option BlockId) : Prop where
  yes : Grows g₁.size g₁ g₂
  join : Grows g₂.size g₂ g₃
  yesJoined : g₃.Resumes g₄ 0 (yesEnd = some ·)
  no : Grows g₄.size g₄ g₅
  noJoined : g₅.Resumes g₆ 0 (noEnd = some ·)
  branched : g₆.Resumes g₇ 0 (· = last)
  joined_size : g₄.size = g₂.size + 1
  last_lt : last.index < g₁.size
  yesEnd_within : ∀ x, yesEnd = some x → g₁.size ≤ x.index ∧ x.index < g₂.size
  noEnd_within : ∀ x, noEnd = some x → g₂.size < x.index ∧ x.index < g₅.size

namespace BlockGraph.Branching

variable {g₁ g₂ g₃ g₄ g₅ g₆ g₇ : BlockGraph} {last : BlockId} {yesEnd noEnd : Option BlockId}
  (h : Branching g₁ g₂ g₃ g₄ g₅ g₆ g₇ last yesEnd noEnd)

include h

theorem size_le : g₁.size ≤ g₂.size := h.yes.extends'.size_le

variable {ends : BlockId → Prop} {lo : Nat} (hg : g₇.Resumes g lo ends)

include hg

theorem resumes_from_no : g₅.Resumes g lo fun x => noEnd = some x ∨ x = last ∨ ends x :=
  (h.noJoined.above (Nat.zero_le lo)).trans ((h.branched.above (Nat.zero_le lo)).trans hg)

theorem resumes_from_join : g₃.Resumes g lo fun x => yesEnd = some x ∨ False ∨ noEnd = some x ∨ x = last ∨ ends x :=
  (h.yesJoined.above (Nat.zero_le lo)).trans ((h.no.resumes lo).trans (h.resumes_from_no hg))

/-- If nothing is linked to it later, then the block where the arms meet stays open. -/
theorem join_isOpen (hlo : lo ≤ g₁.size) (hopen : g₃.IsOpen ⟨g₂.size⟩) (hnot : ¬ ends ⟨g₂.size⟩) :
    g.IsOpen ⟨g₂.size⟩ := by
  have hle₁ := h.size_le
  have hlast := h.last_lt
  refine (h.resumes_from_join hg).stays _ (hlo.trans hle₁) (fun hx => ?_) hopen
  rcases hx with hx | hx | hx | heq | hx
  · exact Nat.lt_irrefl _ (h.yesEnd_within _ hx).2
  · exact hx
  · exact Nat.lt_irrefl _ (h.noEnd_within _ hx).1
  · rw [← heq] at hlast
    dsimp only at hlast
    omega
  · exact hnot hx

variable (hends : ∀ x, ends x → x = ⟨g₂.size⟩)

include hends

/-- Of the blocks of the condition, its end is linked and nothing else. -/
theorem resumes_cond {condEnd : Option BlockId} (hcond : condEnd = some last) : g₁.Resumes g lo (condEnd = some ·) := by
  have hle₁ := h.size_le
  refine ((h.yes.resumes lo).trans ((h.join.resumes lo).trans (h.resumes_from_join hg))).imp (le_refl lo)
    fun x _ hlt hx => ?_
  rcases hx with hx | hx | hx | hx | hx | rfl | hx
  · exact hx.elim
  · exact hx.elim
  · have hbehind := (h.yesEnd_within x hx).1
    omega
  · exact hx.elim
  · have hbehind := (h.noEnd_within x hx).1
    omega
  · exact hcond
  · obtain rfl := hends x hx
    dsimp only at hlt
    omega

variable (hlo : lo ≤ g₁.size)

include hlo

/-- The same for the first arm. -/
theorem resumes_yes : g₂.Resumes g g₁.size (yesEnd = some ·) := by
  have hlast := h.last_lt
  refine ((h.join.resumes lo).trans (h.resumes_from_join hg)).imp hlo fun x hle hlt hx => ?_
  rcases hx with hx | hx | hx | hx | rfl | hx
  · exact hx.elim
  · exact hx
  · exact hx.elim
  · have hbehind := (h.noEnd_within x hx).1
    omega
  · omega
  · obtain rfl := hends x hx
    exact absurd hlt (Nat.lt_irrefl _)

/-- The same for the second arm. -/
theorem resumes_no : g₅.Resumes g g₄.size (noEnd = some ·) := by
  have hle₁ := h.size_le
  have hsize := h.joined_size
  have hlast := h.last_lt
  refine (h.resumes_from_no hg).imp (by omega) fun x hle _ hx => ?_
  rcases hx with hx | rfl | hx
  · exact hx
  · omega
  · obtain rfl := hends x hx
    dsimp only at hle
    omega

end BlockGraph.Branching

namespace Compiler

/-! ### The shape of trees -/

mutual

/-- In a graph an expression has become a fragment, of blocks with numbers from `lo` to below `hi`. -/
inductive Renders (g : BlockGraph) (current : Option Subroutine) : Expr → Nat → Fragment → Nat → Prop
  | int {n : UInt64} {lo : Nat} : g.Holds ⟨lo⟩ [.int n] false →
      Renders g current (.int n) lo ⟨⟨lo⟩, some ⟨lo⟩⟩ (lo + 1)
  | bytes {b : List UInt8} {lo : Nat} : g.Holds ⟨lo⟩ [.byte b] false →
      Renders g current (.bytes b) lo ⟨⟨lo⟩, some ⟨lo⟩⟩ (lo + 1)
  | op {o : Operation} {args : List Expr} {type : ValueType} {returns : Bool} {lo hi : Nat} {fs : List Fragment}
      {f : Fragment} : RendersAll g current args lo fs hi → g.Applied o fs f ⟨hi⟩ →
      Renders g current (.op o args type returns) lo f (hi + 1)
  | empty {lo : Nat} : g.Holds ⟨lo⟩ [] false → Renders g current (.seq []) lo ⟨⟨lo⟩, some ⟨lo⟩⟩ (lo + 1)
  | seq {items : List Expr} {lo hi : Nat} {f : Fragment} : RendersSeq g current items lo f hi →
      Renders g current (.seq items) lo f hi
  | ifThen {cond body : Expr} {lo mid hi : Nat} {c b : Fragment} {last : BlockId} : Renders g current cond lo c mid →
      Renders g current body mid b hi → c.exit = some last → g.Closed last (.branch b.entry ⟨hi⟩ []) →
      (∀ x, b.exit = some x → g.Linked b.exit ⟨hi⟩) → g.Holds ⟨hi⟩ [] false →
      Renders g current (.ifThen cond body) lo ⟨c.entry, some ⟨hi⟩⟩ (hi + 1)
  | ifElse {cond yes no : Expr} {lo mid mid' hi : Nat} {c y n : Fragment} {last : BlockId} :
      Renders g current cond lo c mid → Renders g current yes mid y mid' → Renders g current no (mid' + 1) n hi →
      c.exit = some last → g.Closed last (.branch y.entry n.entry []) →
      (∀ x, y.exit = some x → g.Linked y.exit ⟨mid'⟩) → (∀ x, n.exit = some x → g.Linked n.exit ⟨mid'⟩) →
      g.Holds ⟨mid'⟩ [] false → ((yes.alwaysReturns && no.alwaysReturns) = true → g.IsOpen ⟨mid'⟩) →
      Renders g current (.ifElse cond yes no) lo
        ⟨c.entry, if yes.alwaysReturns && no.alwaysReturns then none else some ⟨mid'⟩⟩ hi
  | ret {value : Expr} {lo hi : Nat} {v f : Fragment} : Renders g current value lo v hi →
      g.Applied (returnOp current) [v] f ⟨hi⟩ → Renders g current (.ret value) lo f (hi + 1)
  | retNothing {lo : Nat} {f : Fragment} : g.Applied (returnOp current) [] f ⟨lo⟩ →
      Renders g current .retNothing lo f (lo + 1)
  | call {callee : Subroutine} {args : List Arg} {lo hi : Nat} {fs : List Fragment} {f : Fragment} :
      RendersAll g current (args.map Arg.pushed) lo fs hi → g.Applied (.callsub callee.id) fs f ⟨hi⟩ →
      Renders g current (.call callee args) lo f (hi + 1)

/-- Expressions have become fragments, one after another. -/
inductive RendersAll (g : BlockGraph) (current : Option Subroutine) : List Expr → Nat → List Fragment → Nat → Prop
  | nil {lo : Nat} : RendersAll g current [] lo [] lo
  | cons {e : Expr} {es : List Expr} {lo mid hi : Nat} {f : Fragment} {fs : List Fragment} :
      Renders g current e lo f mid → RendersAll g current es mid fs hi → RendersAll g current (e :: es) lo (f :: fs) hi

/-- Expressions have become one fragment, in which control goes from each to the next. -/
inductive RendersSeq (g : BlockGraph) (current : Option Subroutine) : List Expr → Nat → Fragment → Nat → Prop
  | last {e : Expr} {lo hi : Nat} {f : Fragment} : Renders g current e lo f hi → RendersSeq g current [e] lo f hi
  | cons {e : Expr} {es : List Expr} {lo mid hi : Nat} {f f' : Fragment} : Renders g current e lo f mid →
      g.Linked f.exit f'.entry → RendersSeq g current es mid f' hi →
      RendersSeq g current (e :: es) lo ⟨f.entry, f'.exit⟩ hi

end

theorem RendersSeq.concat {g : BlockGraph} {current : Option Subroutine} {items : List Expr} {e : Expr}
    {lo mid hi : Nat} {f f' : Fragment} (h : RendersSeq g current items lo f mid) (hlinked : g.Linked f.exit f'.entry)
    (he : Renders g current e mid f' hi) : RendersSeq g current (items ++ [e]) lo ⟨f.entry, f'.exit⟩ hi := by
  induction items generalizing lo f with
  | nil => cases h
  | cons item items ih =>
    cases h with
    | last hitem => exact .cons hitem hlinked (.last he)
    | cons hitem hlinked' hrest =>
      have hcons := fun h => RendersSeq.cons hitem h (ih hrest hlinked)
      exact hcons hlinked'

/-! ### What the shape tells -/

/-- Returning does what the operation does that it becomes. -/
theorem behaviour_returnOp (current : Option Subroutine) (calls : Calls) :
    (returnOp current).behaviour calls = returning current.isSome := by
  cases current with
  | none => exact behaviour_ret
  | some s => exact behaviour_retsub

theorem isJump_returnOp (current : Option Subroutine) : (returnOp current).isJump = false := by
  cases current <;> rfl

theorem isTerminal_returnOp (current : Option Subroutine) : (returnOp current).isTerminal = true := by
  cases current <;> rfl

section Shape

variable {g k : BlockGraph} {current : Option Subroutine} {lo hi : Nat} {f : Fragment} {fs : List Fragment}

theorem RendersAll.le {es : List Expr} (hes : ∀ e ∈ es, ∀ lo f hi, Renders g current e lo f hi → lo ≤ hi)
    (h : RendersAll g current es lo fs hi) : lo ≤ hi := by
  induction es generalizing lo fs with
  | nil =>
    cases h
    exact le_refl _
  | cons e es ih =>
    cases h with
    | cons he hrest =>
      exact (hes e (List.mem_cons_self ..) _ _ _ he).trans (ih (fun e he => hes e (List.mem_cons_of_mem _ he)) hrest)

theorem RendersSeq.le {items : List Expr} (hitems : ∀ e ∈ items, ∀ lo f hi, Renders g current e lo f hi → lo ≤ hi)
    (h : RendersSeq g current items lo f hi) : lo ≤ hi := by
  induction items generalizing lo f with
  | nil => cases h
  | cons e items ih =>
    have hle := hitems e (List.mem_cons_self ..)
    cases h with
    | last he => exact hle _ _ _ he
    | cons he _ hrest =>
      exact (hle _ _ _ he).trans (ih (fun e he => hitems e (List.mem_cons_of_mem _ he)) hrest)

theorem Renders.le {e : Expr} (h : Renders g current e lo f hi) : lo ≤ hi := by
  induction e using Expr.induction generalizing lo f hi with
  | int n | bytes b | retNothing =>
    cases h
    exact Nat.le_succ lo
  | op o args type returns ih =>
    cases h with
    | op hall _ => exact (hall.le fun e he _ _ _ => ih e he).trans (Nat.le_succ _)
  | seq items ih =>
    cases h with
    | empty _ => exact Nat.le_succ lo
    | seq hseq => exact hseq.le fun e he _ _ _ => ih e he
  | ifThen cond body ihcond ihbody =>
    cases h with
    | ifThen hcond hbody => exact ((ihcond hcond).trans (ihbody hbody)).trans (Nat.le_succ _)
  | ifElse cond yes no ihcond ihyes ihno =>
    cases h with
    | ifElse hcond hyes hno =>
      exact ((ihcond hcond).trans (ihyes hyes)).trans ((Nat.le_succ _).trans (ihno hno))
  | ret value ih =>
    cases h with
    | ret hvalue _ => exact (ih hvalue).trans (Nat.le_succ _)
  | call callee args ih =>
    cases h with
    | call hall _ =>
      refine (hall.le fun e he _ _ _ => ?_).trans (Nat.le_succ _)
      obtain ⟨a, ha, rfl⟩ := List.mem_map.1 he
      exact ih a ha

/-! #### Ends -/

theorem exit_iff_of_applied {op : Operation} {own : BlockId} (h : g.Applied op fs f own) :
    f.exit = none ↔ op.isTerminal = true := by
  rw [h.exit]
  cases op.isTerminal <;> simp

/-- A conditional has no end exactly if neither arm has one. -/
theorem exit_ifElse {yes no : Expr} {y n : Fragment} (join : BlockId) (hyes : y.exit = none ↔ yes.alwaysReturns = true)
    (hno : n.exit = none ↔ no.alwaysReturns = true) :
    (if yes.alwaysReturns && no.alwaysReturns then none else some join) = some join ∧ (y.exit ≠ none ∨ n.exit ≠ none) ∨
      (if yes.alwaysReturns && no.alwaysReturns then none else some join) = none ∧ y.exit = none ∧ n.exit = none := by
  rw [Ne, Ne, hyes, hno]
  cases yes.alwaysReturns <;> cases no.alwaysReturns <;> simp

theorem RendersSeq.exit_iff {items : List Expr} (hitems : ∀ e ∈ items, ∀ lo f hi, Renders g current e lo f hi →
    (f.exit = none ↔ e.alwaysReturns = true)) (h : RendersSeq g current items lo f hi) :
    f.exit = none ↔ Expr.lastReturns items = true := by
  induction items generalizing lo f with
  | nil => cases h
  | cons e items ih =>
    cases h with
    | last he => exact hitems e (List.mem_cons_self ..) _ _ _ he
    | cons _ _ hrest =>
      cases items with
      | nil => cases hrest
      | cons e' items =>
        have hlast := ih (fun e he => hitems e (List.mem_cons_of_mem _ he)) hrest
        rwa [Expr.lastReturns]

/-- Of a tree whose operation nodes say rightly whether control gets past them, the fragment has an end if control can
get past the tree. -/
theorem Renders.exit_iff {e : Expr} (h : Renders g current e lo f hi) (hcandid : e.Everywhere Expr.Candid) :
    f.exit = none ↔ e.alwaysReturns = true := by
  induction e using Expr.induction generalizing lo f hi with
  | int n | bytes b | ifThen cond body =>
    cases h
    simp [Expr.alwaysReturns]
  | op o args type returns =>
    cases h with
    | op _ happlied =>
      have hreturns : returns = o.isTerminal := hcandid.here
      rw [exit_iff_of_applied happlied, Expr.alwaysReturns, hreturns]
  | seq items ih =>
    rw [Expr.alwaysReturns]
    cases h with
    | empty _ => simp [Expr.lastReturns]
    | seq hseq => exact hseq.exit_iff fun e he _ _ _ h => ih e he h (hcandid.part he)
  | ifElse cond yes no =>
    cases h
    rw [Expr.alwaysReturns]
    cases yes.alwaysReturns && no.alwaysReturns <;> simp
  | ret value =>
    cases h with
    | ret _ happlied => rw [exit_iff_of_applied happlied, isTerminal_returnOp, Expr.alwaysReturns]
  | retNothing =>
    cases h with
    | retNothing happlied => rw [exit_iff_of_applied happlied, isTerminal_returnOp, Expr.alwaysReturns]
  | call callee args =>
    cases h with
    | call _ happlied =>
      rw [exit_iff_of_applied happlied, Expr.alwaysReturns]
      exact Iff.rfl

/-! #### Ways through the fragment

The rules of the shape speak of blocks that keep their exits when the graph grows, but for the block where arms without
ends would meet, and control does not come there.  So what the shape tells is true of every graph that grew out of this
one. -/

theorem RendersAll.spans {es : List Expr} (hes : ∀ e ∈ es, ∀ lo f hi, Renders g current e lo f hi → f.Spans k lo hi)
    (h : RendersAll g current es lo fs hi) : ∀ f ∈ fs, f.Spans k lo hi := by
  induction es generalizing lo fs with
  | nil =>
    cases h
    exact fun f hf => absurd hf List.not_mem_nil
  | cons e es ih =>
    cases h with
    | cons he hrest =>
      have hle := hrest.le fun e _ _ _ _ => Renders.le
      intro f hf
      rcases List.mem_cons.1 hf with rfl | hf
      · exact (hes e (List.mem_cons_self ..) _ _ _ he).mono (le_refl _) hle
      · exact (ih (fun e he => hes e (List.mem_cons_of_mem _ he)) hrest f hf).mono he.le (le_refl _)

theorem RendersSeq.spans {items : List Expr} (hk : g.Extends k)
    (hitems : ∀ e ∈ items, ∀ lo f hi, Renders g current e lo f hi → f.Spans k lo hi)
    (h : RendersSeq g current items lo f hi) : f.Spans k lo hi := by
  induction items generalizing lo f with
  | nil => cases h
  | cons e items ih =>
    cases h with
    | last he => exact hitems e (List.mem_cons_self ..) _ _ _ he
    | cons he hlinked hrest =>
      have hle := hrest.le fun e _ _ _ _ => Renders.le
      have hlater := ih (fun e he => hitems e (List.mem_cons_of_mem _ he)) hrest
      exact ((hitems e (List.mem_cons_self ..) _ _ _ he).mono (le_refl _) hle).seq (hlinked.mono hk)
        (hlater.mono he.le (le_refl _))

/-- The shape of a tree tells that of its fragment. -/
theorem Renders.spans_extends {e : Expr} (h : Renders g current e lo f hi) (hk : g.Extends k)
    (hcandid : e.Everywhere Expr.Candid) : f.Spans k lo hi := by
  induction e using Expr.induction generalizing lo f hi with
  | int n | bytes b =>
    cases h with
    | _ hblock => exact spans_holds (hblock.mono hk) rfl ⟨le_refl lo, Nat.lt_succ_self lo⟩
  | op o args type returns ih =>
    cases h with
    | op hall happlied =>
      have hspans := hall.spans fun e he _ _ _ h => ih e he h (hcandid.part he)
      have hle := hall.le fun e _ _ _ _ => Renders.le
      exact Spans.applied (fun f hf => (hspans f hf).mono (le_refl _) (Nat.le_succ _)) (happlied.mono hk)
        ⟨hle, Nat.lt_succ_self _⟩
  | seq items ih =>
    cases h with
    | empty hblock => exact spans_holds (hblock.mono hk) rfl ⟨le_refl lo, Nat.lt_succ_self lo⟩
    | seq hseq => exact hseq.spans hk fun e he _ _ _ h => ih e he h (hcandid.part he)
  | ifThen cond body ihcond ihbody =>
    cases h with
    | ifThen hcond hbody hlast hbranch hjoined hholds =>
      have hle := hcond.le
      have hle' := hbody.le
      exact ((ihcond hcond (hcandid.part (by simp [Expr.parts]))).mono (le_refl _) (by omega)).ifThen
        ((ihbody hbody (hcandid.part (by simp [Expr.parts]))).mono hle (Nat.le_succ _)) hlast (hbranch.mono hk)
        (fun y hy => (hjoined y hy).mono hk) (hholds.mono hk) ⟨hle.trans hle', Nat.lt_succ_self _⟩
  | ifElse cond yes no ihcond ihyes ihno =>
    cases h with
    | ifElse hcond hyes hno hlast hbranch hyes' hno' hholds _ =>
      have hcandidyes := hcandid.part (q := yes) (by simp [Expr.parts])
      have hcandidno := hcandid.part (q := no) (by simp [Expr.parts])
      have hle := hcond.le
      have hle' := hyes.le
      have hle'' := hno.le
      exact ((ihcond hcond (hcandid.part (by simp [Expr.parts]))).mono (le_refl _) (by omega)).ifElse
        ((ihyes hyes hcandidyes).mono hle (by omega)) ((ihno hno hcandidno).mono (by omega) (le_refl _)) hlast
        (hbranch.mono hk) (fun y hy => (hyes' y hy).mono hk) (fun y hy => (hno' y hy).mono hk) (hholds.mono hk)
        ⟨hle.trans hle', hle''⟩ (exit_ifElse _ (hyes.exit_iff hcandidyes) (hno.exit_iff hcandidno))
  | ret value ih =>
    cases h with
    | ret hvalue happlied =>
      have hspans := ih hvalue (hcandid.part (by simp [Expr.parts]))
      exact Spans.applied (List.forall_mem_singleton.2 (hspans.mono (le_refl _) (Nat.le_succ _))) (happlied.mono hk)
        ⟨hvalue.le, Nat.lt_succ_self _⟩
  | retNothing =>
    cases h with
    | retNothing happlied => exact Spans.applied (by simp) (happlied.mono hk) ⟨le_refl lo, Nat.lt_succ_self lo⟩
  | call callee args ih =>
    cases h with
    | call hall happlied =>
      have hspans := hall.spans fun e he _ _ _ h => by
        obtain ⟨a, ha, rfl⟩ := List.mem_map.1 he
        exact ih a ha h (hcandid.part he)
      have hle := hall.le fun e _ _ _ _ => Renders.le
      exact Spans.applied (fun f hf => (hspans f hf).mono (le_refl _) (Nat.le_succ _)) (happlied.mono hk)
        ⟨hle, Nat.lt_succ_self _⟩

theorem Renders.spans {e : Expr} (h : Renders g current e lo f hi) (hcandid : e.Everywhere Expr.Candid) :
    f.Spans g lo hi := h.spans_extends (.refl g) hcandid

theorem RendersAll.sweeps {es : List Expr}
    (hes : ∀ e ∈ es, ∀ lo f hi, Renders g current e lo f hi → k.Sweeps lo hi f.entry)
    (h : RendersAll g current es lo fs hi) : k.SweepAll lo fs hi := by
  induction es generalizing lo fs with
  | nil =>
    cases h
    exact rfl
  | cons e es ih =>
    cases h with
    | cons he hrest =>
      exact ⟨_, hes e (List.mem_cons_self ..) _ _ _ he, ih (fun e he => hes e (List.mem_cons_of_mem _ he)) hrest⟩

theorem RendersSeq.sweeps {items : List Expr} (hk : g.Extends k) (hcandid : ∀ e ∈ items, e.Everywhere Expr.Candid)
    (hitems : ∀ e ∈ items, ∀ lo f hi, Renders g current e lo f hi → k.Sweeps lo hi f.entry)
    (h : RendersSeq g current items lo f hi) : k.Sweeps lo hi f.entry := by
  induction items generalizing lo f with
  | nil => cases h
  | cons e items ih =>
    have hfirst := hitems e (List.mem_cons_self ..)
    cases h with
    | last he => exact hfirst _ _ _ he
    | cons he hlinked hrest =>
      have hlater := ih (fun e he => hcandid e (List.mem_cons_of_mem _ he))
        (fun e he => hitems e (List.mem_cons_of_mem _ he)) hrest
      have hspans := he.spans_extends hk (hcandid e (List.mem_cons_self ..))
      exact (hfirst _ _ _ he).append (hlater.from (hspans.linked (hlinked.mono hk)).1)

/-- Control comes to all operations of a tree. -/
theorem Renders.sweeps_extends {e : Expr} (h : Renders g current e lo f hi) (hk : g.Extends k)
    (hcandid : e.Everywhere Expr.Candid) : k.Sweeps lo hi f.entry := by
  induction e using Expr.induction generalizing lo f hi with
  | int n | bytes b =>
    cases h
    exact sweeps_single .refl
  | op o args type returns ih =>
    cases h with
    | op hall happlied =>
      have hsweeps := hall.sweeps fun e he _ _ _ h => ih e he h (hcandid.part he)
      exact hsweeps.applied (hall.spans fun e he _ _ _ h => h.spans_extends hk (hcandid.part he)) (happlied.mono hk)
  | seq items ih =>
    cases h with
    | empty _ => exact sweeps_single .refl
    | seq hseq => exact hseq.sweeps hk (fun e he => hcandid.part he) fun e he _ _ _ h => ih e he h (hcandid.part he)
  | ifThen cond body ihcond ihbody =>
    cases h with
    | ifThen hcond hbody hlast hbranch _ hholds =>
      -- the body lies between the condition and the block where they meet
      have hcandidc := hcandid.part (q := cond) (by simp [Expr.parts])
      have hbodysweeps := ihbody hbody (hcandid.part (by simp [Expr.parts]))
      have hreach := ((hcond.spans_extends hk hcandidc).branched hlast (hbranch.mono hk)).1.1
      exact ((ihcond hcond hcandidc).append (hbodysweeps.from hreach)).append (sweeps_nil (hholds.mono hk))
  | ifElse cond yes no ihcond ihyes ihno =>
    cases h with
    | ifElse hcond hyes hno hlast hbranch _ _ hholds _ =>
      -- first the condition, then the first arm, the block where the arms meet, and the second arm
      have hcandidc := hcandid.part (q := cond) (by simp [Expr.parts])
      have hyessweeps := ihyes hyes (hcandid.part (by simp [Expr.parts]))
      have hnosweeps := ihno hno (hcandid.part (by simp [Expr.parts]))
      obtain ⟨hreach, hreach'⟩ := ((hcond.spans_extends hk hcandidc).branched hlast (hbranch.mono hk)).1
      exact (((ihcond hcond hcandidc).append (hyessweeps.from hreach)).append (sweeps_nil (hholds.mono hk))).append
        (hnosweeps.from hreach')
  | ret value ih =>
    cases h with
    | ret hvalue happlied =>
      have hcandidv := hcandid.part (q := value) (by simp [Expr.parts])
      have hall : k.SweepAll lo [_] _ := ⟨_, ih hvalue hcandidv, rfl⟩
      exact hall.applied (List.forall_mem_singleton.2 (hvalue.spans_extends hk hcandidv)) (happlied.mono hk)
  | retNothing =>
    cases h with
    | retNothing happlied =>
      have hnone : k.SweepAll lo [] lo := rfl
      have hspans : ∀ f ∈ ([] : List Fragment), f.Spans k lo lo := by simp
      exact hnone.applied hspans (happlied.mono hk)
  | call callee args ih =>
    cases h with
    | call hall happlied =>
      have hsweeps := hall.sweeps fun e he _ _ _ h => by
        obtain ⟨a, ha, rfl⟩ := List.mem_map.1 he
        exact ih a ha h (hcandid.part he)
      exact hsweeps.applied (hall.spans fun e he _ _ _ h => h.spans_extends hk (hcandid.part he)) (happlied.mono hk)

/-! #### Meaning -/

theorem RendersAll.means {es : List Expr} (h : RendersAll g current es lo fs hi)
    (hes : ∀ e ∈ es, ∀ lo f hi, Renders g current e lo f hi → f.Means k fun calls => e.behaviour calls current.isSome) :
    MeanAll k current.isSome fs es := by
  induction es generalizing lo fs with
  | nil =>
    cases h
    exact .nil
  | cons e es ih =>
    cases h with
    | cons he hrest =>
      exact .cons (hes e (List.mem_cons_self ..) _ _ _ he) (ih hrest fun e he => hes e (List.mem_cons_of_mem _ he))

theorem RendersSeq.means {items : List Expr} (h : RendersSeq g current items lo f hi) (hk : g.Extends k)
    (hitems : ∀ e ∈ items, ∀ lo f hi, Renders g current e lo f hi →
      f.Means k fun calls => e.behaviour calls current.isSome) :
    f.Means k fun calls => Expr.behaviourAll calls current.isSome items := by
  induction items generalizing lo f with
  | nil => cases h
  | cons e items ih =>
    have hfirst := hitems e (List.mem_cons_self ..)
    cases h with
    | last he => simpa only [Expr.behaviourAll, andThen_skip] using hfirst _ _ _ he
    | cons he hlinked hrest =>
      have hseq := (hfirst _ _ _ he).seq (hlinked.mono hk) (ih hrest fun e he => hitems e (List.mem_cons_of_mem _ he))
      simpa only [Expr.behaviourAll] using hseq

/-- The fragment of a tree means its evaluation. -/
theorem Renders.means_extends {e : Expr} (h : Renders g current e lo f hi) (hk : g.Extends k) (he : e.Regular) :
    f.Means k fun calls => e.behaviour calls current.isSome := by
  induction e using Expr.induction generalizing lo f hi with
  | int n =>
    cases h with
    | int hblock =>
      have hmeans : Means k ⟨⟨lo⟩, some ⟨lo⟩⟩ _ := means_holds (hblock.mono hk) (by simp [Operation.isJump]) (by simp)
      simpa only [Expr.behaviour, Operation.behaviourAll, andThen_skip, behaviour_int] using hmeans
  | bytes b =>
    cases h with
    | bytes hblock =>
      have hmeans : Means k ⟨⟨lo⟩, some ⟨lo⟩⟩ _ := means_holds (hblock.mono hk) (by simp [Operation.isJump]) (by simp)
      simpa only [Expr.behaviour, Operation.behaviourAll, andThen_skip, behaviour_byte] using hmeans
  | op o args type returns ih =>
    cases h with
    | op hall happlied =>
      cases he with
      | op howns hargs =>
        have hmeans := hall.means fun e he _ _ _ h => ih e he h (hargs e he)
        simpa only [Expr.behaviour] using Means.applied hmeans (happlied.mono hk) howns.2.1
  | seq items ih =>
    simp only [Expr.behaviour]
    cases h with
    | empty hblock =>
      have hmeans : Means k ⟨⟨lo⟩, some ⟨lo⟩⟩ _ := means_holds (hblock.mono hk) (by simp) (by simp)
      simpa only [Expr.behaviourAll, Operation.behaviourAll] using hmeans
    | seq hseq => exact hseq.means hk fun e he' _ _ _ h => ih e he' h (he.part he')
  | ifThen cond body ihcond ihbody =>
    cases h with
    | ifThen hcond hbody hlast hbranch hjoined hholds =>
      cases he with
      | ifThen hregc hregb =>
        simpa only [Expr.behaviour] using (ihcond hcond hregc).ifThen (ihbody hbody hregb) hlast (hbranch.mono hk)
          (fun y hy => (hjoined y hy).mono hk) (hholds.mono hk)
  | ifElse cond yes no ihcond ihyes ihno =>
    have hcandid := he.candid
    cases h with
    | ifElse hcond hyes hno hlast hbranch hyes' hno' hholds _ =>
      have hyesexit := hyes.exit_iff (hcandid.part (by simp [Expr.parts]))
      have hnoexit := hno.exit_iff (hcandid.part (by simp [Expr.parts]))
      cases he with
      | ifElse hregc hregy hregn =>
        simpa only [Expr.behaviour] using (ihcond hcond hregc).ifElse (ihyes hyes hregy) (ihno hno hregn) hlast
          (hbranch.mono hk) (fun y hy => (hyes' y hy).mono hk) (fun y hy => (hno' y hy).mono hk) (hholds.mono hk)
          ((exit_ifElse _ hyesexit hnoexit).imp_left And.left)
  | ret value ih =>
    cases h with
    | ret hvalue happlied =>
      cases he with
      | ret hreg =>
        have hall : MeanAll k current.isSome [_] [value] := .cons (ih hvalue hreg) .nil
        simpa only [Expr.behaviour, Expr.behaviourAll, andThen_skip, behaviour_returnOp] using
          Means.applied hall (happlied.mono hk) (isJump_returnOp current)
  | retNothing =>
    cases h with
    | retNothing happlied =>
      have hnone : MeanAll k current.isSome [] [] := .nil
      simpa only [Expr.behaviour, Expr.behaviourAll, skip_andThen, behaviour_returnOp] using
        Means.applied hnone (happlied.mono hk) (isJump_returnOp current)
  | call callee args ih =>
    cases h with
    | call hall happlied =>
      have hmeans := hall.means fun e he' _ _ _ h => by
        obtain ⟨a, ha, rfl⟩ := List.mem_map.1 he'
        exact ih a ha h (he.part he')
      simpa only [Expr.behaviour, Arg.behaviourAll_eq, behaviour_callsub] using
        Means.applied hmeans (happlied.mono hk) rfl

theorem Renders.means {e : Expr} (h : Renders g current e lo f hi) (he : e.Regular) :
    f.Means g fun calls => e.behaviour calls current.isSome := h.means_extends (.refl g) he

end Shape

end Compiler

end ScratchMachine
