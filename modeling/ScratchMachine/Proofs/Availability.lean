import ScratchMachine.Proofs.Courses

/-!
# Operations that the selected version has

The options take part in lowering only where an operation is about to be used, and decide whether the selected version
has it.  So a graph gets no operation that the version lacks, and what succeeds with one version goes the same way with
every other that has all operations of the graph.

* `BlockGraph.Available`: a version has all operations of a graph.
* `Compiler.lower_gated`: lowering looks at the options for nothing else.
* `Compiler.Reachable.gated`: no compiler comes to have an operation that its version lacks.
-/

namespace ScratchMachine

open BlockGraph Fallible

/-- A version has all operations of the blocks. -/
def BlockGraph.Available (g : BlockGraph) (version : Nat) : Prop :=
  ∀ ops ∈ g.code, ∀ op ∈ ops, op.introducedIn ≤ version

theorem BlockGraph.Available.of_prefix {g g' : BlockGraph} {version : Nat} (h : g'.Available version)
    (hcode : g.code <+: g'.code) : g.Available version := fun ops hops => h ops (hcode.subset hops)

theorem BlockGraph.Available.mono {g : BlockGraph} {version version' : Nat} (h : g.Available version)
    (hle : version ≤ version') : g.Available version' := fun ops hops op hop => (h ops hops op hop).trans hle

theorem Options.validate_eq_ok {o : Options} : o.validate = .ok () ↔
    (Options.lowestVersion ≤ o.version ∧ o.version ≤ Options.highestVersion) ∧ o.slotCount ≠ 0 := by
  unfold Options.validate
  by_cases hin : Options.lowestVersion ≤ o.version ∧ o.version ≤ Options.highestVersion
  · rw [if_pos hin]
    dsimp only
    split
    · rename_i hslots
      exact iff_of_false (fun h => by cases h) fun h => h.2 hslots
    · rename_i hslots
      exact iff_of_true rfl ⟨hin, hslots⟩
  · rw [if_neg hin]
    exact iff_of_false (fun h => by cases h) fun h => hin h.1

namespace Compiler

variable {σ α β : Type} {c c' c'' c₁ : Compiler σ} {added : List (List Operation)}

/-! ### Two ways to look at the options -/

/-- Nothing has changed but the graph, which got operations that the version has, and the subroutines that wait. -/
structure Gates (c c' : Compiler σ) : Prop where
  rest : c' = { c with graph := c'.graph, pending := c'.pending }
  code : c.graph.code <+: c'.graph.code
  narrow : c.graph.Narrow → c'.graph.Narrow
  available : Options.lowestVersion ≤ c.options.version → c.graph.Available c.options.version →
    c'.graph.Available c.options.version

theorem Gates.refl (c : Compiler σ) : Gates c c := ⟨rfl, List.prefix_refl _, fun h => h, fun _ h => h⟩

theorem Gates.options_eq (h : Gates c c') : c'.options = c.options := by rw [h.rest]

theorem Gates.trans (h : Gates c c') (h' : Gates c' c'') : Gates c c'' := by
  refine ⟨?_, h.code.trans h'.code, fun hnarrow => h'.narrow (h.narrow hnarrow), fun hlow havailable => ?_⟩
  · rw [h'.rest, h.rest]
  · have hstep := h'.available
    rw [h.options_eq] at hstep
    exact hstep hlow (h.available hlow havailable)

/-- For lowering, a compiler is the same as another, whatever its options are. -/
structure Sees (c c' : Compiler σ) : Prop where
  graph : c'.graph = c.graph
  pending : c'.pending = c.pending
  current : c'.current = c.current
  statuses : ∀ s, (c'.definition? s).map (·.status) = (c.definition? s).map (·.status)

theorem Sees.eq_self (h : Sees c c') : { c' with graph := c.graph, pending := c.pending } = c' := by
  rw [← h.graph, ← h.pending]

/-- Two such compilers stay so. -/
theorem Sees.gates (h : Sees c c') (hgates : Gates c c₁) :
    Sees c₁ { c' with graph := c₁.graph, pending := c₁.pending } := by
  refine ⟨rfl, rfl, ?_, fun s => ?_⟩
  · rw [hgates.rest]
    exact h.current
  · rw [hgates.rest]
    exact h.statuses s

/-- From any state, an action adds only operations that the version has.  Where it succeeds, it goes the same way with
any other version that has all operations of the graph which it leaves. -/
structure Gated (x : Compiling σ α) : Prop where
  gates : ∀ {c c' : Compiler σ} {answer : Except CompileError α}, x.run.run c = (answer, c') → Gates c c'
  transfers : ∀ {c c₁ c' : Compiler σ} {a : α}, Sees c c' → x.run.run c = (.ok a, c₁) →
    c₁.graph.Available c'.options.version →
    x.run.run c' = (.ok a, { c' with graph := c₁.graph, pending := c₁.pending })

theorem gated_pure (a : α) : Gated (pure a : Compiling σ α) where
  gates h := by
    cases h
    exact .refl _
  transfers hsees h _ := by
    cases h
    rw [hsees.eq_self]
    rfl

theorem gated_throw (e : CompileError) : Gated (throw e : Compiling σ α) where
  gates h := by
    cases h
    exact .refl _
  transfers _ h := by cases h

theorem gated_lift (x : Except CompileError α) : Gated (liftM x : Compiling σ α) := by
  cases x with
  | error e => exact gated_throw e
  | ok a => exact gated_pure a

theorem Gated.bind {x : Compiling σ α} {k : α → Compiling σ β} (hx : Gated x) (hk : ∀ a, Gated (k a)) :
    Gated (x >>= k) where
  gates {c c' answer} h := by
    rw [run_bind] at h
    rcases hrun : x.run.run c with ⟨e | a, mid⟩
    · rw [hrun] at h
      cases h
      exact hx.gates hrun
    · rw [hrun] at h
      exact (hx.gates hrun).trans ((hk a).gates h)
  transfers {c c₁ c' b} hsees h havailable := by
    obtain ⟨a, mid, hrun, hrest⟩ := bind_eq_ok.1 h
    -- what is left of the graph in the end was there in between
    have hmid := hx.transfers hsees hrun (havailable.of_prefix ((hk a).gates hrest).code)
    exact bind_eq_ok.2 ⟨a, _, hmid, (hk a).transfers (hsees.gates (hx.gates hrun)) hrest havailable⟩

/-- To refuse something. -/
theorem gated_unless {p : Prop} [Decidable p] {e : CompileError} {k : Compiling σ α} (hk : Gated k) :
    Gated (if p then throw e >>= fun _ : PUnit => k else k) := by
  split
  · exact (gated_throw e).bind fun _ => hk
  · exact hk

/-- To look up the subroutine that is being lowered. -/
theorem gated_current {k : Option Subroutine → Compiling σ α} (hk : ∀ current, Gated (k current)) :
    Gated (get >>= fun c => k c.current) where
  gates h := (hk _).gates h
  transfers {c c₁ c' a} hsees h havailable := by
    have hrun := (hk c.current).transfers hsees h havailable
    rw [← hsees.current] at hrun
    exact hrun

/-! ### The parts of the rules -/

theorem run_onGraph (action : Linking α) (c : Compiler σ) :
    (onGraph action).run.run c = ((action.run.run c.graph).1, { c with graph := (action.run.run c.graph).2 }) := rfl

/-- What is done to the graph alone depends on nothing else. -/
theorem transfers_onGraph (action : Linking α) {a : α} (hsees : Sees c c')
    (h : (onGraph action).run.run c = (.ok a, c₁)) :
    (onGraph action).run.run c' = (.ok a, { c' with graph := c₁.graph, pending := c₁.pending }) := by
  rw [run_onGraph] at h ⊢
  rw [hsees.graph]
  rcases hrun : action.run.run c.graph with ⟨answer, g⟩
  simp only [hrun] at h ⊢
  cases h
  rw [← hsees.pending]

theorem gates_onGraph {action : Linking α} (hwrites : Writes added action)
    (hadded : Options.lowestVersion ≤ c.options.version → ∀ ops ∈ added, ∀ op ∈ ops, op.introducedIn ≤ c.options.version) :
    Gates c ((onGraph action).run.run c).2 := by
  rw [run_onGraph]
  have hcode : (action.run.run c.graph).2.code = c.graph.code ++ added := hwrites.code c.graph
  refine ⟨rfl, ⟨added, hcode.symm⟩, hwrites.narrow c.graph, fun hlow havailable ops hops => ?_⟩
  replace hops : ops ∈ (action.run.run c.graph).2.code := hops
  rw [hcode] at hops
  rcases List.mem_append.1 hops with hold | hnew
  · exact havailable ops hold
  · exact hadded hlow ops hnew

/-- To add blocks with operations that all versions have. -/
theorem gated_onGraph {action : Linking α} (hwrites : Writes added action)
    (hadded : ∀ ops ∈ added, ∀ op ∈ ops, op.introducedIn ≤ Options.lowestVersion) :
    Gated (onGraph (σ := σ) action) where
  gates {c c' answer} h := by
    have hgates : Gates c ((onGraph action).run.run c).2 :=
      gates_onGraph hwrites fun hlow ops hops op hop => (hadded ops hops op hop).trans hlow
    rwa [h] at hgates
  transfers hsees h _ := transfers_onGraph action hsees h

theorem run_require (op : Operation) (k : Compiling σ α) (c : Compiler σ) :
    (get >>= fun c => liftM (c.options.require op) >>= fun _ => k).run.run c =
      if op.introducedIn ≤ c.options.version then k.run.run c
      else (.error (.notAvailable op.mnemonic op.introducedIn c.options.version), c) := by
  show (liftM (c.options.require op) >>= fun _ => k).run.run c = _
  unfold Options.require
  split <;> rfl

/-- To require an operation that is going to be used. -/
theorem gated_require {op : Operation} {k : Compiling σ α} (hk : Gated k)
    (hop : ∀ {c c₁ : Compiler σ} {a : α}, k.run.run c = (.ok a, c₁) → [op] ∈ c₁.graph.code) :
    Gated (get >>= fun c => liftM (c.options.require op) >>= fun _ => k) where
  gates {c c' answer} h := by
    rw [run_require] at h
    split at h
    · exact hk.gates h
    · cases h
      exact .refl c
  transfers {c c₁ c' a} hsees h havailable := by
    rw [run_require] at h ⊢
    split at h
    · rw [if_pos (havailable [op] (hop h) op (List.mem_singleton.2 rfl))]
      exact hk.transfers hsees h havailable
    · cases h

theorem run_emit (op : Operation) (fragments : List Fragment) (c : Compiler σ) :
    (emit op fragments).run.run c =
      if op.introducedIn ≤ c.options.version then (onGraph (applyOp op fragments)).run.run c
      else (.error (.notAvailable op.mnemonic op.introducedIn c.options.version), c) := run_require op _ c

/-- The operation that was used is in the graph. -/
theorem mem_code_of_emit {op : Operation} {fragments : List Fragment} {f : Fragment}
    (h : (emit op fragments).run.run c = (.ok f, c₁)) : [op] ∈ c₁.graph.code := by
  rw [run_emit] at h
  split at h
  · have hcode := (writes_applyOp op fragments).code c.graph
    obtain ⟨-, rfl⟩ := Prod.mk.inj ((run_onGraph _ c).symm.trans h)
    show [op] ∈ ((applyOp op fragments).run.run c.graph).2.code
    rw [hcode]
    exact List.mem_append_right _ (List.mem_singleton.2 rfl)
  · cases h

theorem gated_emit (op : Operation) (fragments : List Fragment) : Gated (emit (σ := σ) op fragments) where
  gates {c c' answer} h := by
    rw [run_emit] at h
    split at h
    · rename_i hop
      have hgates : Gates c ((onGraph (applyOp op fragments)).run.run c).2 := by
        refine gates_onGraph (writes_applyOp op fragments) fun _ ops hops o ho => ?_
        obtain rfl := List.mem_singleton.1 hops
        obtain rfl := List.mem_singleton.1 ho
        exact hop
      rwa [h] at hgates
    · cases h
      exact .refl c
  transfers {c c₁ c' f} hsees h havailable := by
    have hop := havailable [op] (mem_code_of_emit h) op (List.mem_singleton.2 rfl)
    rw [run_emit] at h ⊢
    rw [if_pos hop]
    split at h
    · exact transfers_onGraph _ hsees h
    · cases h

/-- To look up whether a subroutine is defined. -/
theorem gated_definition (s : Subroutine) : Gated (discard (definition s) : Compiling σ Unit) := by
  have hrun : ∀ c : Compiler σ, (discard (definition s) : Compiling σ Unit).run.run c =
      if (c.definition? s).isSome then (.ok (), c) else (.error (.notDefinedHere s.name), c) := by
    intro c
    show (definition s >>= fun _ => pure () : Compiling σ Unit).run.run c = _
    rw [run_bind, run_definition]
    cases c.definition? s <;> rfl
  refine ⟨fun {c c' answer} h => ?_, fun {c c₁ c' a} hsees h _ => ?_⟩
  · rw [hrun] at h
    split at h
    all_goals
      cases h
      exact .refl _
  · rw [hrun] at h ⊢
    split at h
    · rename_i hsome
      cases h
      have hsome' := congrArg Option.isSome (hsees.statuses s)
      rw [Option.isSome_map, Option.isSome_map, hsome] at hsome'
      rw [if_pos hsome', hsees.eq_self]
    · cases h

theorem run_enqueue (s : Subroutine) (c : Compiler σ) :
    (enqueue s).run.run c = match (c.definition? s).map (·.status) with
      | none => (.error (.notDefinedHere s.name), c)
      | some .undeclared => (.ok (), if c.pending.any s.sameId then c else { c with pending := c.pending ++ [s] })
      | some .declaring | some (.declared _) => (.ok (), c) := by
  rw [enqueue, run_bind, run_definition]
  rcases c.definition? s with _ | d
  · rfl
  · simp only [Option.map_some]
    rcases d.status with _ | _ | decl <;> rfl

theorem gated_enqueue (s : Subroutine) : Gated (enqueue (σ := σ) s) where
  gates {c c' answer} h := by
    rw [run_enqueue] at h
    split at h
    · cases h
      exact .refl c
    · cases h
      split
      · exact .refl c
      · exact ⟨rfl, List.prefix_refl _, fun h => h, fun _ h => h⟩
    · cases h
      exact .refl c
    · cases h
      exact .refl c
  transfers {c c₁ c' a} hsees h _ := by
    rw [run_enqueue] at h ⊢
    rw [hsees.statuses, hsees.pending]
    split at h
    · cases h
    · cases h
      by_cases hwaits : c.pending.any s.sameId
      · rw [if_pos hwaits, if_pos hwaits, hsees.eq_self]
      · rw [if_neg hwaits, if_neg hwaits, ← hsees.graph]
    · cases h
      rw [hsees.eq_self]
    · cases h
      rw [hsees.eq_self]

/-! ### Lowering -/

theorem gated_lowerAll {es : List Expr} (h : ∀ e ∈ es, Gated (lower (σ := σ) e)) : Gated (lowerAll (σ := σ) es) := by
  induction es with
  | nil =>
    rw [lowerAll]
    exact gated_pure []
  | cons e es ih =>
    rw [lowerAll]
    refine (h e (List.mem_cons_self ..)).bind fun first => ?_
    exact (ih fun e he => h e (List.mem_cons_of_mem _ he)).bind fun others => gated_pure _

theorem gated_lowerAfter {rest : List Expr} (h : ∀ e ∈ rest, Gated (lower (σ := σ) e)) (before : Fragment) :
    Gated (lowerAfter (σ := σ) before rest) := by
  induction rest generalizing before with
  | nil =>
    rw [lowerAfter]
    exact gated_pure before
  | cons e rest ih =>
    rw [lowerAfter]
    refine (h e (List.mem_cons_self ..)).bind fun next => ?_
    refine (gated_onGraph (writes_seq before next) (by simp)).bind fun both => ?_
    exact ih (fun e he => h e (List.mem_cons_of_mem _ he)) both

/-- Lowering adds only operations that the version has, and looks at the options for nothing else. -/
theorem lower_gated (e : Expr) : Gated (lower (σ := σ) e) := by
  have hjoin : ∀ (arm : Fragment) (join : BlockId), Gated (onGraph (σ := σ) (joinArm arm join)) := fun arm join =>
    gated_onGraph (writes_joinArm arm join) (by simp)
  have hbranch : ∀ last first second : BlockId, Gated (onGraph (σ := σ) (branch last [first, second])) :=
    fun last first second => gated_onGraph (writes_branch last first second) (by simp)
  have hblock : Gated (onGraph (σ := σ) (addBlock [])) := gated_onGraph (writes_addBlock []) (by simp)
  induction e using Expr.induction with
  | int n =>
    rw [lower]
    exact gated_onGraph (writes_fragment [.int n]) (by simp [Operation.introducedIn, Options.lowestVersion])
  | bytes b =>
    rw [lower]
    exact gated_onGraph (writes_fragment [.byte b]) (by simp [Operation.introducedIn, Options.lowestVersion])
  | op o args type returns ih =>
    rw [lower]
    exact (gated_lowerAll ih).bind fun children => gated_emit o children
  | seq items ih =>
    cases items with
    | nil =>
      rw [lower]
      exact gated_onGraph (writes_fragment []) (by simp)
    | cons e rest =>
      rw [lower]
      refine (gated_lift _).bind fun _ => (ih e (List.mem_cons_self ..)).bind fun first => ?_
      exact gated_lowerAfter (fun e he => ih e (List.mem_cons_of_mem _ he)) first
  | ifThen cond body ihcond ihbody =>
    rw [lower]
    refine (gated_lift _).bind fun _ => gated_unless ?_
    refine ihcond.bind fun c => (gated_lift _).bind fun last => ihbody.bind fun b => hblock.bind fun join => ?_
    exact (hjoin b join).bind fun _ => (hbranch last b.entry join).bind fun _ => gated_pure _
  | ifElse cond yes no ihcond ihyes ihno =>
    rw [lower]
    refine (gated_lift _).bind fun _ => (gated_lift _).bind fun _ => ihcond.bind fun c =>
      (gated_lift _).bind fun last => ?_
    refine ihyes.bind fun y => hblock.bind fun join => (hjoin y join).bind fun _ => ihno.bind fun n => ?_
    exact (hjoin n join).bind fun _ => (hbranch last y.entry n.entry).bind fun _ => gated_pure _
  | ret value ih =>
    rw [lower]
    refine gated_current (k := fun current => do
      checkReturn current value
      let v ← lower value
      emit (returnOp current) [v]) fun current => ?_
    exact (gated_lift _).bind fun _ => ih.bind fun v => gated_emit _ _
  | retNothing =>
    rw [lower]
    refine gated_current (k := fun current => do
      checkReturnNone current
      emit (returnOp current) []) fun current => ?_
    exact (gated_lift _).bind fun _ => gated_emit _ _
  | call callee args ih =>
    rw [lower, lowerArgs_eq]
    have hargs : ∀ e ∈ args.map Arg.pushed, Gated (lower (σ := σ) e) := by
      intro e he
      obtain ⟨a, ha, rfl⟩ := List.mem_map.1 he
      exact ih a ha
    refine (gated_definition callee).bind fun _ => (gated_lift _).bind fun _ => gated_require ?_ fun {c c₁ f} h => ?_
    · exact (gated_lowerAll hargs).bind fun children => (gated_enqueue callee).bind fun _ => gated_emit _ children
    · -- the call that is required early is used in the end
      obtain ⟨children, mid, -, h⟩ := bind_eq_ok.1 h
      obtain ⟨-, mid', -, h⟩ := bind_eq_ok.1 h
      exact mem_code_of_emit h

/-! ### Whatever hosts do -/

/-- One state follows another with the same options, and all operations of its graph are in its version. -/
structure Abides (c c' : Compiler σ) : Prop where
  evolves : c.Evolves c'
  options : c'.options = c.options
  code : c.graph.code <+: c'.graph.code
  version : Options.lowestVersion ≤ c'.options.version
  narrow : c'.graph.Narrow
  available : c'.graph.Available c'.options.version

/-- What changes neither the options nor the graph changes nothing that matters. -/
theorem Abides.of_evolves (h : Abides c c') (hevolves : c'.Evolves c'') (hoptions : c''.options = c'.options)
    (hgraph : c''.graph = c'.graph) : Abides c c'' := by
  refine ⟨h.evolves.trans hevolves, hoptions.trans h.options, ?_, ?_, ?_, ?_⟩
  · rw [hgraph]
    exact h.code
  · rw [hoptions]
    exact h.version
  · rw [hgraph]
    exact h.narrow
  · rw [hgraph, hoptions]
    exact h.available

theorem enduring_abides : Enduring (Abides (σ := σ)) where
  trans h h' := ⟨h.evolves.trans h'.evolves, h'.options.trans h.options, h.code.trans h'.code, h'.version, h'.narrow,
    h'.available⟩
  stays {_ c'} h := ⟨.refl c', rfl, List.prefix_refl _, h.version, h.narrow, h.available⟩
  slots h _ := h.of_evolves (.of_grows (.refl _ _) rfl) rfl rfl
  host _ h := h.of_evolves (.of_grows (.refl _ _) rfl) rfl rfl
  current _ h := h.of_evolves (.of_grows (.refl _ _) rfl) rfl rfl
  define name params returns body h := h.of_evolves (evolves_define _ name params returns body) rfl rfl
  lower {c c' e answer} h hlower hadvances := by
    have hgates := (lower_gated e).gates hlower
    have hoptions := hgates.options_eq
    have hdefs : c'.definitions = c.definitions := by rw [hadvances.rest]
    refine ⟨.of_grows hadvances.grows hdefs, hoptions, hgates.code, ?_, hgates.narrow h.narrow, ?_⟩
    · rw [hoptions]
      exact h.version
    · rw [hoptions]
      exact hgates.available h.version h.available
  evolves h := h.evolves
  pending _ h := h.of_evolves (.of_grows (.refl _ _) rfl) rfl rfl
  undeclared h _ := h.of_evolves (evolves_withStatus _ _ _) rfl rfl
  declared _ h _ _ _ := h.of_evolves (evolves_withStatus _ _ _) rfl rfl

theorem abides_of_create {key : Nat} {options : Options} {host : σ} (h : create key options host = .ok c) :
    Abides c c := by
  obtain ⟨⟨⟩, hvalid, h⟩ := except_bind_eq_ok.1 h
  cases h
  exact ⟨.refl _, rfl, List.prefix_refl _, (Options.validate_eq_ok.1 hvalid).1.1, fun id b hb => (by cases hb),
    fun ops hops => (by cases hops)⟩

/-- No compiler comes to have an operation that its version lacks. -/
theorem Reachable.abides (h : c.Reachable) : Abides c c := h.holds enduring_abides fun _ _ _ _ => abides_of_create

end Compiler

/-! ### Linear code -/

namespace BlockGraph

open Linear

variable {g : BlockGraph} {entry id : BlockId} {b : Block} {l : List (BlockId × Block)} {ops : List Operation}
  {op : Operation} {version : Nat}

/-- Blocks that branch to no more than two others become operations and plain jumps. -/
theorem item_of_place (hnarrow : ∀ x ∈ l, x.2.exit.targets.length ≤ 2) {item : Item}
    (h : item ∈ (place l).flatMap (·.2)) :
    (∃ t, item = .jump t ∨ item = .jumpIfFalse t) ∨ ∃ x ∈ l, ∃ o ∈ x.2.ops, item = .op o := by
  induction l with
  | nil => cases h
  | cons x l ih =>
    obtain ⟨id, b⟩ := x
    rw [place, List.flatMap_cons, List.mem_append, List.mem_append] at h
    rcases h with (hop | hexit) | hrest
    · obtain ⟨o, ho, rfl⟩ := List.mem_map.1 hop
      exact .inr ⟨(id, b), List.mem_cons_self .., o, ho, rfl⟩
    · left
      have htwo : b.exit.targets.length ≤ 2 := hnarrow (id, b) (List.mem_cons_self ..)
      have hjump : ∀ following target, item ∈ jumpUnless following target →
          ∃ t, item = .jump t ∨ item = .jumpIfFalse t := by
        intro following target hitem
        unfold jumpUnless at hitem
        split at hitem
        · cases hitem
        · exact ⟨.block target, .inl (List.mem_singleton.1 hitem)⟩
      unfold exitCode at hexit
      split at hexit
      · split at hexit
        · exact ⟨.finish, .inl (List.mem_singleton.1 hexit)⟩
        · cases hexit
      · exact hjump _ _ hexit
      · rename_i first second _
        rcases List.mem_cons.1 hexit with heq | hexit
        · exact ⟨.block second, .inr heq⟩
        · exact hjump _ _ hexit
      · rename_i hbranch
        rw [hbranch] at htwo
        simp [Exit.targets] at htwo
      · cases hexit
    · refine (ih (fun x hx => hnarrow x (List.mem_cons_of_mem _ hx)) hrest).imp_right ?_
      rintro ⟨x, hx, hrest⟩
      exact ⟨x, List.mem_cons_of_mem _ hx, hrest⟩

/-- The layout adds only jumps that all versions have. -/
theorem Available.of_linearize (h : g.Available version) (hlow : Options.lowestVersion ≤ version) (hnarrow : g.Narrow)
    (hlinear : g.linearize entry = .ok ops) (hop : op ∈ ops) : op.introducedIn ≤ version := by
  obtain ⟨l, htrace, hres⟩ := except_bind_eq_ok.1 hlinear
  obtain ⟨i, hi⟩ := List.getElem?_of_mem hop
  have hlt : i < ((place l).flatMap (·.2)).length := by
    rw [← length_resolveFrom hres]
    exact (List.getElem?_eq_some_iff.1 hi).1
  obtain ⟨op', hop', hresolve⟩ := getElem?_resolveFrom hres (List.getElem?_eq_getElem hlt)
  obtain rfl := Option.some.inj (hi.symm.trans hop')
  have hitem := item_of_place (fun x hx => hnarrow x.1 x.2 (mem_trace htrace hx).2) (List.getElem_mem hlt)
  rcases hitem with ⟨t, hjump | hjump⟩ | ⟨x, hx, o, ho, hown⟩
  · rw [hjump] at hresolve
    obtain ⟨offset, -, hresolve⟩ := except_bind_eq_ok.1 hresolve
    cases hresolve
    exact hlow
  · rw [hjump] at hresolve
    obtain ⟨offset, -, hresolve⟩ := except_bind_eq_ok.1 hresolve
    cases hresolve
    exact hlow
  · rw [hown] at hresolve
    cases hresolve
    exact h x.2.ops (mem_code_iff.2 ⟨x.1, x.2, (mem_trace htrace hx).2, rfl⟩) op ho

/-- All operations that control can come to are in the code. -/
theorem mem_linearize_of_reaches (hlinear : g.linearize entry = .ok ops) (hreach : g.Reaches entry id)
    (hb : g.block? id = some b) (hop : op ∈ b.ops) : op ∈ ops := by
  obtain ⟨l, htrace, hres⟩ := except_bind_eq_ok.1 hlinear
  obtain ⟨hmap, -⟩ := trace_eq htrace
  obtain ⟨x, hx, rfl⟩ : ∃ x ∈ l, x.1 = id := List.mem_map.1 (hmap ▸ mem_order_iff.2 hreach)
  obtain rfl := Option.some.inj ((mem_trace htrace hx).2.symm.trans hb)
  have hitem : ∀ l : List (BlockId × Block), x ∈ l → .op op ∈ (place l).flatMap (·.2) := by
    intro l hx
    induction l with
    | nil => cases hx
    | cons y l ih =>
      obtain ⟨id, b⟩ := y
      rw [place, List.flatMap_cons, List.mem_append]
      rcases List.mem_cons.1 hx with rfl | hx
      · exact .inl (List.mem_append_left _ (List.mem_map_of_mem hop))
      · exact .inr (ih hx)
  obtain ⟨i, hi⟩ := List.getElem?_of_mem (hitem l hx)
  obtain ⟨op', hop', hresolve⟩ := getElem?_resolveFrom hres hi
  cases hresolve
  exact List.mem_of_getElem? hop'

end BlockGraph

end ScratchMachine
