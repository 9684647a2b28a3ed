import ScratchMachine.Proofs.Checking

/-!
# Why lowering is refused

An expression is refused because of what it says: its types, the subroutines that it calls, the version that its
operations need, or a part that never falls through where something is to follow.  It is never refused because blocks
were put together wrongly: whatever is linked is there and has not been linked before.

* `BlockGraph.failsFrom_applyOp`: the linking of fragments whose ends are open.
* `Expr.Objection`: the reasons why an expression can be refused, apart from its parts, and the errors that tell.
* `Compiler.failsFrom_lower`: if an expression is refused, then there is such a reason within it.
-/

namespace ScratchMachine

open BlockGraph Fallible

/-- Whether the error says that blocks were put together wrongly: one of them a second time, one with too few others,
or one that is not there. -/
def CompileError.isMislink : CompileError → Bool
  | alreadyLinked .. | tooFewTargets _ | unknownBlock _ => true
  | _ => false

/-! ### Linking -/

namespace BlockGraph

variable {g : BlockGraph} {p : CompileError → Prop} {source target first second : BlockId}

theorem fails_addBlock (ops : List Operation) : Fails (addBlock ops) p :=
  fails_bind fails_get fun _ => fails_bind (fails_modify _) fun _ => fails_pure _

theorem failsFrom_close (exit : Exit) (hopen : g.IsOpen source) : FailsFrom (close source exit) g p := by
  obtain ⟨b, hb, hexit⟩ := hopen
  have hblock : g.block source = .ok b := block_eq_ok.2 hb
  refine failsFrom_get_bind (failsFrom_lift_bind (fun e he => ?_) fun b' hb' => ?_)
  · rw [hblock] at he
    cases he
  · obtain rfl := Except.ok.inj (hblock.symm.trans hb')
    dsimp only
    rw [if_pos hexit]
    exact fails_modify _ g

theorem failsFrom_follow {context : String} {last : Option BlockId}
    (hcontext : last = none → p (.neverFallsThrough context)) (hopen : ∀ x, last = some x → g.IsOpen x) :
    FailsFrom (follow context last target) g p := by
  cases last with
  | none => exact fails_throw (hcontext rfl) g
  | some x => exact failsFrom_close _ (hopen x rfl)

theorem failsFrom_seq {before next : Fragment} (hcontext : before.exit = none → p (.neverFallsThrough "seq"))
    (hopen : ∀ x, before.exit = some x → g.IsOpen x) : FailsFrom (BlockGraph.seq before next) g p :=
  (failsFrom_follow hcontext hopen).bind fun _ g' _ => fails_pure _ g'

/-- The ends of other fragments stay open when one of them is linked. -/
theorem EndsOpen.tail {f : Fragment} {fragments : List Fragment} (h : g.EndsOpen (f :: fragments)) {g' : BlockGraph}
    (hother : ∀ id, f.exit ≠ some id → g'.block? id = g.block? id) : g'.EndsOpen fragments := by
  obtain ⟨hdistinct, hrest⟩ := List.pairwise_cons.1 h.distinct
  refine ⟨fun f' hf' x hx => ?_, hrest⟩
  exact (h.isOpen f' (List.mem_cons_of_mem _ hf') x hx).congr (hother x fun heq => hdistinct f' hf' x heq hx)

theorem failsFrom_chain {f : Fragment} {fragments : List Fragment} (h : g.EndsOpen (f :: fragments))
    (hcontext : ∀ f' ∈ f :: fragments, f'.exit = none → p (.neverFallsThrough "argument list")) :
    FailsFrom (chain f.exit fragments) g p := by
  induction fragments generalizing f g with
  | nil => exact fails_pure _ g
  | cons next rest ih =>
    have hfollow : FailsFrom (follow "argument list" f.exit next.entry) g p :=
      failsFrom_follow (hcontext f (List.mem_cons_self ..)) (h.isOpen f (List.mem_cons_self ..))
    refine hfollow.bind_ensures (follow_ensures fun x _ => Nat.zero_le _) fun _ g' h' => ?_
    exact ih (h.tail h'.2.2) fun f' hf' => hcontext f' (List.mem_cons_of_mem _ hf')

/-- The end of the chain is the end of its last fragment, which is not linked yet. -/
theorem chain_isOpen {f : Fragment} {fragments : List Fragment} (h : g.EndsOpen (f :: fragments)) :
    Ensures (chain f.exit fragments) g
      (fun last g' => (∃ f' ∈ f :: fragments, f'.exit = last) ∧ ∀ x, last = some x → g'.IsOpen x) fun _ => True := by
  induction fragments generalizing f g with
  | nil => exact ensures_pure ⟨⟨f, List.mem_cons_self .., rfl⟩, h.isOpen f (List.mem_cons_self ..)⟩
  | cons next rest ih =>
    refine ensures_bind ((follow_ensures fun x _ => Nat.zero_le _).imp (fun _ g' h' => ?_) fun _ _ => trivial)
    refine (ih (h.tail h'.2.2)).imp (fun last g'' hlast => ?_) fun _ _ => trivial
    obtain ⟨⟨f', hf', hexit⟩, hopen⟩ := hlast
    exact ⟨⟨f', List.mem_cons_of_mem _ hf', hexit⟩, hopen⟩

theorem EndsOpen.push {fragments : List Fragment} (h : g.EndsOpen fragments) (b : Block) :
    EndsOpen ⟨g.blocks.push b⟩ fragments := by
  refine ⟨fun f hf x hx => ?_, h.distinct⟩
  obtain ⟨b', hb', hexit⟩ := h.isOpen f hf x hx
  refine ⟨b', ?_, hexit⟩
  rw [block?_push, if_neg (Nat.ne_of_lt (index_lt_size hb'))]
  exact hb'

theorem failsFrom_applyOp (op : Operation) {fragments : List Fragment} (h : g.EndsOpen fragments)
    (hcontext : ∀ f ∈ fragments, f.exit = none → p (.neverFallsThrough "argument list")) :
    FailsFrom (applyOp op fragments) g p := by
  have hfinish : ∀ (entry own : BlockId) (g' : BlockGraph), FailsFrom (if op.isTerminal = true then do
        setExit own .terminal
        return ⟨entry, none⟩
      else return ⟨entry, some own⟩ : Linking Fragment) g' p := by
    intro entry own g'
    split
    · exact fails_bind (fails_modify _) (fun _ => fails_pure _) g'
    · exact fails_pure _ g'
  unfold applyOp
  refine FailsFrom.bind_ensures (fails_addBlock [op] g) (addBlock_ensures [op] fun _ => True) fun own g₁ h₁ => ?_
  obtain ⟨-, rfl⟩ := h₁
  cases fragments with
  | nil => exact FailsFrom.bind (fails_pure _ _) fun _ _ _ => hfinish _ _ _
  | cons first rest =>
    have hopen := h.push ⟨[op], .opened⟩
    refine (failsFrom_chain hopen hcontext).bind_ensures (chain_isOpen hopen) fun last g₂ h₂ => ?_
    obtain ⟨⟨f, hf, rfl⟩, hopen₂⟩ := h₂
    refine (failsFrom_follow (hcontext f hf) hopen₂).bind fun _ g₃ _ => ?_
    exact FailsFrom.bind (fails_pure _ _) fun _ _ _ => hfinish _ _ _

end BlockGraph

/-! ### Objections -/

/-- Control never gets past the expression, if its operation nodes state rightly whether control gets past them. -/
def Expr.Endless (e : Expr) : Prop := e.Everywhere Candid → e.alwaysReturns = true

open Compiler in
/-- An error that an expression can be refused with because of itself and not of one of its parts, if it is lowered as
part of the main program or of a subroutine, for some version, and some subroutines are defined. -/
inductive Expr.Objection (current : Option Subroutine) (options : Options) (defined : Subroutine → Prop) :
    Expr → CompileError → Prop
  | operation {o args type returns error} : options.require o = .error error →
      Objection current options defined (.op o args type returns) error
  | operand {o args type returns e} : e ∈ args → e.Endless →
      Objection current options defined (.op o args type returns) (.neverFallsThrough "argument list")
  | items {items error} : checkItems 0 items = .error error → Objection current options defined (.seq items) error
  | item {items e} : e ∈ items.dropLast → e.Endless →
      Objection current options defined (.seq items) (.neverFallsThrough "seq")
  | ifThenType {cond body error} : cond.type.require .uint64 = .error error →
      Objection current options defined (.ifThen cond body) error
  | ifThenBody {cond body} : body.type ≠ .none →
      Objection current options defined (.ifThen cond body) (.missingElse body.type)
  | ifThenCond {cond body} : cond.Endless →
      Objection current options defined (.ifThen cond body) (.neverFallsThrough "if condition")
  | ifElseType {cond yes no error} : cond.type.require .uint64 = .error error →
      Objection current options defined (.ifElse cond yes no) error
  | ifElseArms {cond yes no error} : checkArms yes no = .error error →
      Objection current options defined (.ifElse cond yes no) error
  | ifElseCond {cond yes no} : cond.Endless →
      Objection current options defined (.ifElse cond yes no) (.neverFallsThrough "if condition")
  | retType {value error} : checkReturn current value = .error error →
      Objection current options defined (.ret value) error
  | retVersion {value error} : options.require (returnOp current) = .error error →
      Objection current options defined (.ret value) error
  | retValue {value} : value.Endless →
      Objection current options defined (.ret value) (.neverFallsThrough "argument list")
  | retNothingType {error} : checkReturnNone current = .error error →
      Objection current options defined .retNothing error
  | retNothingVersion {error} : options.require (returnOp current) = .error error →
      Objection current options defined .retNothing error
  | callee {callee args} : ¬ defined callee →
      Objection current options defined (.call callee args) (.notDefinedHere callee.name)
  | arguments {callee args error} : callee.checkArgs args = .error error →
      Objection current options defined (.call callee args) error
  | callVersion {callee args error} : options.require (.callsub callee.id) = .error error →
      Objection current options defined (.call callee args) error
  | argument {callee args e} : e ∈ args.map Arg.pushed → e.Endless →
      Objection current options defined (.call callee args) (.neverFallsThrough "argument list")

/-! ### Checks -/

theorem ValueType.require_error {actual expected : ValueType} {e : CompileError}
    (h : actual.require expected = .error e) : e.isMislink = false := by
  unfold ValueType.require at h
  split at h <;> cases h
  rfl

theorem Options.require_error {o : Options} {op : Operation} {e : CompileError} (h : o.require op = .error e) :
    e.isMislink = false := by
  unfold Options.require at h
  split at h <;> cases h
  rfl

theorem Subroutine.checkArgsFrom_error {s : Subroutine} {index : Nat} {params : List Param} {args : List Arg}
    {e : CompileError} (h : s.checkArgsFrom index params args = .error e) : e.isMislink = false := by
  induction params generalizing index args with
  | nil => cases h
  | cons param params ih =>
    cases args with
    | nil => cases h
    | cons arg args =>
      rw [checkArgsFrom] at h
      rcases except_bind_eq_error.1 h with h | ⟨_, -, h⟩
      · unfold checkArg at h
        split at h <;> (repeat' split at h) <;> cases h <;> rfl
      · exact ih h

theorem Subroutine.checkArgs_error {s : Subroutine} {args : List Arg} {e : CompileError}
    (h : s.checkArgs args = .error e) : e.isMislink = false := by
  unfold checkArgs at h
  split at h
  · exact checkArgsFrom_error h
  · cases h
    rfl

namespace Compiler

variable {σ : Type} {c : Compiler σ}

theorem checkItems_error {items : List Expr} {index : Nat} {e : CompileError} (h : checkItems index items = .error e) :
    e.isMislink = false := by
  fun_induction checkItems index items with
  | case1 => cases h
  | case2 => cases h
  | case3 index item next rest _ ih => exact ih h
  | case4 => cases h; rfl

theorem checkArms_error {yes no : Expr} {e : CompileError} (h : checkArms yes no = .error e) : e.isMislink = false := by
  unfold checkArms at h
  split at h <;> cases h
  rfl

theorem checkReturn_error {current : Option Subroutine} {value : Expr} {e : CompileError}
    (h : checkReturn current value = .error e) : e.isMislink = false := by
  unfold checkReturn at h
  split at h
  · exact ValueType.require_error h
  · split at h
    · cases h
      rfl
    · exact ValueType.require_error h

theorem checkReturnNone_error {current : Option Subroutine} {e : CompileError}
    (h : checkReturnNone current = .error e) : e.isMislink = false := by
  unfold checkReturnNone at h
  (repeat' split at h) <;> cases h <;> rfl

/-- No objection is that blocks were put together wrongly. -/
theorem isMislink_of_objection {current : Option Subroutine} {options : Options} {defined : Subroutine → Prop} {e : Expr}
    {error : CompileError} (h : e.Objection current options defined error) : error.isMislink = false := by
  cases h with
  | operation h | retVersion h | retNothingVersion h | callVersion h => exact Options.require_error h
  | ifThenType h | ifElseType h => exact ValueType.require_error h
  | items h => exact checkItems_error h
  | ifElseArms h => exact checkArms_error h
  | retType h => exact checkReturn_error h
  | retNothingType h => exact checkReturnNone_error h
  | arguments h => exact Subroutine.checkArgs_error h
  | operand | item | ifThenBody | ifThenCond | ifElseCond | retValue | callee | argument => rfl

/-! ### Lowering -/

/-- What was open before stays open while blocks are added. -/
theorem Advances.keeps_isOpen {c c' : Compiler σ} (h : Advances c.graph.size c c') {x : BlockId}
    (hopen : c.graph.IsOpen x) : x.index < c.graph.size ∧ c'.graph.IsOpen x := by
  obtain ⟨b, hb, -⟩ := id hopen
  have hlt := index_lt_size hb
  exact ⟨hlt, hopen.congr (h.grows.keeps x hlt)⟩

/-- There is an objection to something within an expression. -/
def Refuses (c : Compiler σ) (e : Expr) (error : CompileError) : Prop :=
  ∃ q : Expr, q.Within e ∧ q.Objection c.current c.options c.Defines error

theorem Refuses.part {e part : Expr} {error : CompileError} (h : c.Refuses part error) (hpart : part ∈ e.parts) :
    c.Refuses e error := by
  obtain ⟨q, hq, hobjection⟩ := h
  exact ⟨q, .part hpart hq, hobjection⟩

theorem Alike.advance {n : Nat} {c₁ c₂ : Compiler σ} (h : c.Alike c₁) (hadvances : Advances n c₁ c₂) : c.Alike c₂ :=
  h.trans hadvances.alike

theorem Alike.refuses {c' : Compiler σ} (h : c.Alike c') {e : Expr} {error : CompileError}
    (hrefuses : c'.Refuses e error) : c.Refuses e error := by
  rw [h] at hrefuses
  exact hrefuses

theorem Lowered.endless {c c' : Compiler σ} {e : Expr} {f : Fragment} (h : Lowered c e f c') (hexit : f.exit = none) :
    e.Endless := fun hcandid => (h.exit_iff hcandid).1 hexit

section Errors

variable {p : CompileError → Prop}

theorem failsFrom_onGraph {α : Type} {action : Linking α} (h : FailsFrom action c.graph p) :
    FailsFrom (onGraph (σ := σ) action) c p := by
  intro e c' hrun
  have herror : (action.run.run c.graph).1 = .error e := congrArg Prod.fst hrun
  exact h e (action.run.run c.graph).2 (Prod.ext herror rfl)

theorem failsFrom_definition {s : Subroutine} (h : ¬ c.Defines s → p (.notDefinedHere s.name)) :
    FailsFrom (definition s) c p := by
  refine failsFrom_get_bind ?_
  split
  · exact fails_pure _ c
  · rename_i hnone
    refine fails_throw (h ?_) c
    rintro ⟨d, hd⟩
    cases hnone.symm.trans hd

theorem failsFrom_enqueue {s : Subroutine} (h : ¬ c.Defines s → p (.notDefinedHere s.name)) :
    FailsFrom (enqueue s) c p := by
  refine (failsFrom_definition h).bind fun d c₁ _ => ?_
  split
  · exact fails_modify _ c₁
  · exact fails_pure _ c₁
  · exact fails_pure _ c₁

theorem failsFrom_emit {op : Operation} {fragments : List Fragment} (h : c.graph.EndsOpen fragments)
    (hrequire : ∀ error, c.options.require op = .error error → p error)
    (hcontext : ∀ f ∈ fragments, f.exit = none → p (.neverFallsThrough "argument list")) :
    FailsFrom (emit op fragments) c p :=
  failsFrom_get_bind (failsFrom_lift_bind hrequire fun _ _ => failsFrom_onGraph (failsFrom_applyOp op h hcontext))

theorem failsFrom_fragment (ops : List Operation) : FailsFrom (onGraph (σ := σ) (fragment ops)) c p :=
  failsFrom_onGraph (fails_bind (fails_addBlock ops) (fun _ => fails_pure _) _)

theorem failsFrom_joinArm {arm : Fragment} {join : BlockId} (hopen : ∀ x, arm.exit = some x → c.graph.IsOpen x) :
    FailsFrom (onGraph (σ := σ) (joinArm arm join)) c p := by
  refine failsFrom_onGraph ?_
  unfold joinArm
  split
  · rename_i x hx
    exact failsFrom_close _ (hopen x hx)
  · exact fails_pure _ _

theorem failsFrom_branch {last first second : BlockId} (hopen : c.graph.IsOpen last) :
    FailsFrom (onGraph (σ := σ) (branch last [first, second])) c p :=
  failsFrom_onGraph (failsFrom_close _ hopen)

theorem failsFrom_conditionEnd_bind {α : Type} {cond : Fragment} {k : BlockId → Compiling σ α}
    (hend : cond.exit = none → p (.neverFallsThrough "if condition"))
    (hk : ∀ last, cond.exit = some last → FailsFrom (k last) c p) :
    FailsFrom ((liftM (conditionEnd cond) : Compiling σ BlockId) >>= k) c p := by
  refine failsFrom_lift_bind (fun error h => ?_) fun last hlast => hk last (conditionEnd_eq_ok hlast)
  unfold conditionEnd at h
  split at h <;> cases h
  exact hend (by assumption)

end Errors

/-- If it is refused, then there is an objection to something within the expression. -/
def RefusedRightly (σ : Type) (e : Expr) : Prop := ∀ c : Compiler σ, FailsFrom (lower e) c (c.Refuses e)

theorem RefusedRightly.part {part : Expr} (h : RefusedRightly σ part) {c₁ : Compiler σ} (halike : c.Alike c₁) {e : Expr}
    (hpart : part ∈ e.parts) : FailsFrom (lower part) c₁ (c.Refuses e) :=
  fun error c' hrun => (halike.refuses (h c₁ error c' hrun)).part hpart

theorem lowerAll_refusedRightly {e : Expr} {es : List Expr} (hes : ∀ part ∈ es, RefusedRightly σ part ∧ part ∈ e.parts)
    {c₁ : Compiler σ} (halike : c.Alike c₁) : FailsFrom (lowerAll es) c₁ (c.Refuses e) := by
  induction es generalizing c₁ with
  | nil =>
    rw [lowerAll]
    exact fails_pure _ c₁
  | cons first es ih =>
    rw [lowerAll]
    obtain ⟨hfirst, hpart⟩ := hes first (List.mem_cons_self ..)
    refine (hfirst.part halike hpart).bind_ensures (lower_ensures first c₁) fun f c₂ hf => ?_
    refine FailsFrom.bind (ih (fun e he => hes e (List.mem_cons_of_mem _ he)) (halike.advance hf.advances))
      fun fs c₃ _ => ?_
    exact fails_pure _ c₃

/-- A fragment without an end is that of an expression past which control never gets. -/
theorem lowerAll_endless {es : List Expr} (c : Compiler σ) :
    Ensures (lowerAll es) c (fun fs _ => ∀ f ∈ fs, f.exit = none → ∃ e ∈ es, e.Endless) fun _ => True := by
  induction es generalizing c with
  | nil =>
    rw [lowerAll]
    exact ensures_pure (by simp)
  | cons e es ih =>
    rw [lowerAll]
    refine ensures_bind ((lower_ensures e c).imp (fun f c₁ hf => ?_) fun _ _ => trivial)
    refine ensures_bind ((ih c₁).imp (fun fs c₂ hfs => ensures_pure ?_) fun _ _ => trivial)
    intro f' hf' hexit
    rcases List.mem_cons.1 hf' with rfl | hf'
    · exact ⟨e, List.mem_cons_self .., hf.endless hexit⟩
    · obtain ⟨e', he', hendless⟩ := hfs f' hf' hexit
      exact ⟨e', List.mem_cons_of_mem _ he', hendless⟩

theorem lowerAfter_refusedRightly {items rest : List Expr} (hrest : ∀ e ∈ rest, RefusedRightly σ e ∧ e ∈ items)
    (hlast : ∀ e ∈ rest.dropLast, e ∈ items.dropLast) {c₁ : Compiler σ} (halike : c.Alike c₁) {before : Fragment}
    (hopen : ∀ x, before.exit = some x → c₁.graph.IsOpen x)
    (hbefore : rest ≠ [] → before.exit = none → ∃ e ∈ items.dropLast, e.Endless) :
    FailsFrom (lowerAfter before rest) c₁ (c.Refuses (.seq items)) := by
  induction rest generalizing c₁ before with
  | nil =>
    rw [lowerAfter]
    exact fails_pure _ c₁
  | cons e rest ih =>
    rw [lowerAfter]
    obtain ⟨he, hpart⟩ := hrest e (List.mem_cons_self ..)
    refine (he.part halike (e := .seq items) hpart).bind_ensures (lower_ensures e c₁) fun next c₂ hnext => ?_
    have hopen₂ : ∀ x, before.exit = some x → x.index < c₁.graph.size ∧ c₂.graph.IsOpen x :=
      fun x hx => hnext.advances.keeps_isOpen (hopen x hx)
    have hlinked : Ensures (BlockGraph.seq before next) c₂.graph
        (fun both g' => both.exit = next.exit ∧ Grows 0 c₂.graph g' ∧ ∀ x, both.exit = some x → g'.IsOpen x)
        fun _ => True := by
      refine ensures_bind ((follow_ensures fun x _ => Nat.zero_le _).imp (fun _ g' h' => ensures_pure ?_)
        fun _ _ => trivial)
      refine ⟨rfl, h'.1, fun x hx => ?_⟩
      obtain ⟨hle, hopen₃⟩ := hnext.isOpen x hx
      refine hopen₃.congr (h'.2.2 x fun heq => ?_)
      have hlt := (hopen₂ x heq).1
      omega
    have hseq : FailsFrom (BlockGraph.seq before next) c₂.graph (c.Refuses (.seq items)) := by
      refine failsFrom_seq (fun hexit => ?_) fun x hx => (hopen₂ x hx).2
      obtain ⟨e', he', hendless⟩ := hbefore (List.cons_ne_nil _ _) hexit
      exact ⟨_, .here, .item he' hendless⟩
    refine (failsFrom_onGraph hseq).bind_ensures (onGraph_ensures hlinked) fun both c₃ h₃ => ?_
    obtain ⟨hc₃, hexit, hgrows, hopen₃⟩ := h₃
    have halike₃ := (halike.advance hnext.advances).advance (Advances.of_grows hc₃ hgrows)
    refine ih (fun e he => hrest e (List.mem_cons_of_mem _ he)) (fun e' he' => hlast e' ?_) halike₃ hopen₃
      fun hne hnone => ?_
    · cases rest with
      | nil => cases he'
      | cons e'' rest => exact List.mem_cons_of_mem _ he'
    · refine ⟨e, hlast e ?_, hnext.endless (hexit ▸ hnone)⟩
      rw [List.dropLast_cons_of_ne_nil hne]
      exact List.mem_cons_self ..

theorem refusedRightly_ifThen {cond body : Expr} (hcond : RefusedRightly σ cond) (hbody : RefusedRightly σ body) :
    RefusedRightly σ (.ifThen cond body) := by
  intro c
  rw [lower]
  refine failsFrom_lift_bind (fun _ he => ⟨_, .here, .ifThenType he⟩) fun _ _ => ?_
  dsimp only
  by_cases htype : body.type = .none
  swap
  · rw [if_pos htype]
    refine FailsFrom.bind (fun e c' h => ?_) fun _ _ h => ?_
    · cases h
      exact ⟨_, .here, .ifThenBody htype⟩
    · cases h
  rw [if_neg (by simpa using htype)]
  refine (hcond.part (.refl c) (by simp [Expr.parts])).bind_ensures (lower_ensures cond c) fun fc c₁ hc => ?_
  refine failsFrom_conditionEnd_bind (fun hexit => ⟨_, .here, .ifThenCond (hc.endless hexit)⟩) fun last hlast => ?_
  have halike₁ := (Alike.refl c).advance hc.advances
  have hopen₁ := (hc.isOpen last hlast).2
  refine (hbody.part halike₁ (by simp [Expr.parts])).bind_ensures (lower_ensures body c₁) fun fb c₂ hb => ?_
  obtain ⟨hlt, hopen₂⟩ := hb.advances.keeps_isOpen hopen₁
  refine FailsFrom.bind_ensures (failsFrom_onGraph (fails_addBlock [] _)) (addJoin_ensures c₂) fun join c₃ h₃ => ?_
  have hopen₃ := (h₃.1.keeps_isOpen hopen₂).2
  refine (failsFrom_joinArm fun x hx => (h₃.1.keeps_isOpen (hb.isOpen x hx).2).2).bind_ensures
    (joinArm_ensures fun x hx => (hb.isOpen x hx).1) fun _ c₄ h₄ => ?_
  have hopen₄ := hopen₃.congr (h₄.1.grows.keeps last hlt)
  exact (failsFrom_branch hopen₄).bind fun _ c₅ _ => fails_pure _ c₅

theorem refusedRightly_ifElse {cond yes no : Expr} (hcond : RefusedRightly σ cond) (hyes : RefusedRightly σ yes)
    (hno : RefusedRightly σ no) : RefusedRightly σ (.ifElse cond yes no) := by
  intro c
  rw [lower]
  refine failsFrom_lift_bind (fun _ he => ⟨_, .here, .ifElseType he⟩) fun _ _ => ?_
  refine failsFrom_lift_bind (fun _ he => ⟨_, .here, .ifElseArms he⟩) fun _ _ => ?_
  refine (hcond.part (.refl c) (by simp [Expr.parts])).bind_ensures (lower_ensures cond c) fun fc c₁ hc => ?_
  refine failsFrom_conditionEnd_bind (fun hexit => ⟨_, .here, .ifElseCond (hc.endless hexit)⟩) fun last hlast => ?_
  have halike₁ := (Alike.refl c).advance hc.advances
  have hopen₁ := (hc.isOpen last hlast).2
  refine (hyes.part halike₁ (by simp [Expr.parts])).bind_ensures (lower_ensures yes c₁) fun fy c₂ hy => ?_
  obtain ⟨hlt, hopen₂⟩ := hy.advances.keeps_isOpen hopen₁
  refine FailsFrom.bind_ensures (failsFrom_onGraph (fails_addBlock [] _)) (addJoin_ensures c₂) fun join c₃ h₃ => ?_
  have hopen₃ := (h₃.1.keeps_isOpen hopen₂).2
  refine (failsFrom_joinArm fun x hx => (h₃.1.keeps_isOpen (hy.isOpen x hx).2).2).bind_ensures
    (joinArm_ensures fun x hx => (hy.isOpen x hx).1) fun _ c₄ h₄ => ?_
  have hopen₄ := hopen₃.congr (h₄.1.grows.keeps last hlt)
  have halike₄ := ((halike₁.advance hy.advances).advance h₃.1).advance h₄.1
  refine (hno.part halike₄ (by simp [Expr.parts])).bind_ensures (lower_ensures no c₄) fun fn c₅ hn => ?_
  obtain ⟨hlt₄, hopen₅⟩ := hn.advances.keeps_isOpen hopen₄
  refine (failsFrom_joinArm fun x hx => (hn.isOpen x hx).2).bind_ensures
    (joinArm_ensures fun x hx => (hn.isOpen x hx).1) fun _ c₆ h₆ => ?_
  have hopen₆ := hopen₅.congr (h₆.1.grows.keeps last hlt₄)
  exact (failsFrom_branch hopen₆).bind fun _ c₇ _ => fails_pure _ c₇

theorem refusedRightly_call {callee : Subroutine} {args : List Arg} (ih : ∀ a ∈ args, RefusedRightly σ a.pushed) :
    RefusedRightly σ (.call callee args) := by
  intro c
  rw [lower, lowerArgs_eq]
  have hundefined : ¬ c.Defines callee → c.Refuses (.call callee args) (.notDefinedHere callee.name) :=
    fun h => ⟨_, .here, .callee h⟩
  have hfound : Ensures (discard (definition callee)) c (fun _ c₁ => c₁ = c) fun _ => True :=
    ensures_bind (definition_ensures.imp (fun _ _ h => ensures_pure h.1) fun _ _ => trivial)
  refine FailsFrom.bind_ensures (FailsFrom.bind (failsFrom_definition hundefined) fun _ c₁ _ => fails_pure _ c₁)
    hfound fun _ c₁ h₁ => ?_
  subst h₁
  refine failsFrom_lift_bind (fun _ he => ⟨_, .here, .arguments he⟩) fun _ _ => ?_
  refine failsFrom_get_bind (failsFrom_lift_bind (fun _ he => ⟨_, .here, .callVersion he⟩) fun _ _ => ?_)
  have hargs : ∀ e ∈ args.map Arg.pushed, RefusedRightly σ e ∧ e ∈ (Expr.call callee args).parts := by
    intro e he
    obtain ⟨a, ha, rfl⟩ := List.mem_map.1 he
    exact ⟨ih a ha, he⟩
  refine (lowerAll_refusedRightly hargs (.refl c₁)).bind_ensures
    ((lowerAll_ensures _ c₁).and (lowerAll_endless c₁)) fun fs c₂ h₂ => ?_
  obtain ⟨hall, hendless⟩ := h₂
  have halike₂ := (Alike.refl c₁).advance hall.advances
  -- that the callee is noted leaves the graph as it is
  refine FailsFrom.bind_ensures (failsFrom_enqueue fun h => hundefined fun hdefined => h ?_) (enqueue_ensures 0)
    fun _ c₃ h₃ => ?_
  · rw [halike₂]
    exact hdefined
  refine failsFrom_emit (h₃.2 ▸ hall.ends) (fun error he => ⟨_, .here, .callVersion ?_⟩) fun f hf hexit => ?_
  · rw [halike₂.advance h₃.1] at he
    exact he
  · obtain ⟨e, he, hend⟩ := hendless f hf hexit
    exact ⟨_, .here, .argument he hend⟩

/-- If an expression is refused, then there is an objection to something within it. -/
theorem failsFrom_lower (e : Expr) : RefusedRightly σ e := by
  induction e using Expr.induction with
  | int n =>
    intro c
    rw [lower]
    exact failsFrom_fragment _
  | bytes b =>
    intro c
    rw [lower]
    exact failsFrom_fragment _
  | op o args type returns ih =>
    intro c
    rw [lower]
    refine (lowerAll_refusedRightly (e := .op o args type returns) (fun e he => ⟨ih e he, he⟩) (.refl c)).bind_ensures
      ((lowerAll_ensures _ c).and (lowerAll_endless c)) fun fs c₁ h₁ => ?_
    obtain ⟨hall, hendless⟩ := h₁
    refine failsFrom_emit hall.ends (fun error he => ⟨_, .here, .operation ?_⟩) fun f hf hexit => ?_
    · rw [(Alike.refl c).advance hall.advances] at he
      exact he
    · obtain ⟨e, he, hend⟩ := hendless f hf hexit
      exact ⟨_, .here, .operand he hend⟩
  | seq items ih =>
    intro c
    cases items with
    | nil =>
      rw [lower]
      exact failsFrom_fragment _
    | cons e rest =>
      rw [lower]
      refine failsFrom_lift_bind (fun _ he => ⟨_, .here, .items he⟩) fun _ _ => ?_
      refine ((ih e (List.mem_cons_self ..)).part (.refl c) (List.mem_cons_self ..)).bind_ensures (lower_ensures e c)
        fun f c₁ hf => ?_
      refine lowerAfter_refusedRightly (fun e he => ⟨ih e (List.mem_cons_of_mem _ he), List.mem_cons_of_mem _ he⟩)
        (fun e' he' => ?_) ((Alike.refl c).advance hf.advances) (fun x hx => (hf.isOpen x hx).2) fun hne hexit => ?_
      · cases rest with
        | nil => cases he'
        | cons e'' rest => exact List.mem_cons_of_mem _ he'
      · refine ⟨e, ?_, hf.endless hexit⟩
        rw [List.dropLast_cons_of_ne_nil hne]
        exact List.mem_cons_self ..
  | ifThen cond body ihcond ihbody => exact refusedRightly_ifThen ihcond ihbody
  | ifElse cond yes no ihcond ihyes ihno => exact refusedRightly_ifElse ihcond ihyes ihno
  | ret value ih =>
    intro c
    rw [lower]
    refine failsFrom_get_bind (failsFrom_lift_bind (fun _ he => ⟨_, .here, .retType he⟩) fun _ _ => ?_)
    refine (ih.part (.refl c) (by simp [Expr.parts])).bind_ensures (lower_ensures value c) fun f c₁ hf => ?_
    refine failsFrom_emit ⟨fun f' hf' x hx => ?_, by simp⟩ (fun error he => ⟨_, .here, .retVersion ?_⟩)
      fun f' hf' hexit => ?_
    · obtain rfl := List.mem_singleton.1 hf'
      exact (hf.isOpen x hx).2
    · rw [(Alike.refl c).advance hf.advances] at he
      exact he
    · obtain rfl := List.mem_singleton.1 hf'
      exact ⟨_, .here, .retValue (hf.endless hexit)⟩
  | retNothing =>
    intro c
    rw [lower]
    refine failsFrom_get_bind (failsFrom_lift_bind (fun _ he => ⟨_, .here, .retNothingType he⟩) fun _ _ => ?_)
    exact failsFrom_emit ⟨by simp, .nil⟩ (fun error he => ⟨_, .here, .retNothingVersion he⟩) (by simp)
  | call callee args ih => exact refusedRightly_call ih

/-- An expression is never refused because blocks were put together wrongly. -/
theorem linksWell_lower (e : Expr) (c : Compiler σ) : FailsFrom (lower e) c (·.isMislink = false) := by
  intro error c' hrun
  obtain ⟨q, -, hobjection⟩ := failsFrom_lower e c error c' hrun
  exact isMislink_of_objection hobjection

end Compiler

end ScratchMachine
