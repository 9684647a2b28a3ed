import ScratchMachine.Proofs.Twins

/-!
# Compilations without dead code

If hosts have nothing lowered themselves, then all blocks of a compilation come from the main program and from the
bodies of the subroutines that it declares.  If all of these state rightly which of their operations control gets past,
then control may come to each of their operations, and so all of them are in the assembled program.

* `BlockGraph.Swept`: control may come to all operations of a graph.
* `Compiler.SetsUp`: what a host can change that has nothing lowered or declared.
* `Compiler.Tidy`: what holds whenever the next subroutine is taken from those that wait.
* `Compilation.program_available`, `Compilation.available_of_program`: the version that has all operations of the graph
  has those of the program, and the other way round if there is no dead code.
-/

namespace ScratchMachine

open BlockGraph Fallible Declaring

/-! ### Graphs -/

namespace BlockGraph

variable {g g' : BlockGraph} {starts starts' : List BlockId} {entry id : BlockId}

/-- From one of the starts, control may come to every block that has operations. -/
def Swept (g : BlockGraph) (starts : List BlockId) : Prop :=
  ∀ id b, g.block? id = some b → b.ops ≠ [] → ∃ start ∈ starts, g.Reaches start id

/-- An open block leads nowhere, so control takes all ways that it took before. -/
theorem Reaches.of_extends (h : g.Reaches entry id) (hext : g.Extends g') : g'.Reaches entry id := by
  induction h with
  | refl => exact .refl
  | @tail id target _ hstep ih =>
    refine ih.tail ?_
    unfold successors at hstep ⊢
    rcases hb : g.block? id with _ | b
    · rw [hb] at hstep
      cases hstep
    obtain ⟨b', hb', -, hexit⟩ := hext id b hb
    rw [hb] at hstep
    have hclosed : b.exit ≠ .opened := by
      intro hopen
      simp [Block.successors, hopen, Exit.targets] at hstep
    rw [hb']
    show target ∈ b'.successors
    rw [Block.successors, hexit hclosed]
    exact hstep

/-- Control has to come to the blocks that are added. -/
theorem Swept.grow (h : g.Swept starts) (hext : g.Extends g') (hsub : starts ⊆ starts') (hentry : entry ∈ starts')
    (hnew : g'.Sweeps g.size g'.size entry) : g'.Swept starts' := by
  intro id b hb hops
  rcases Nat.lt_or_ge id.index g.size with hlt | hge
  · obtain ⟨b₀, hb₀⟩ := Option.isSome_iff_exists.1 (block?_isSome.2 hlt)
    obtain ⟨b', hb', hsame, -⟩ := hext id b₀ hb₀
    obtain rfl := Option.some.inj (hb'.symm.trans hb)
    obtain ⟨start, hstart, hreach⟩ := h id b₀ hb₀ (hsame ▸ hops)
    exact ⟨start, hsub hstart, hreach.of_extends hext⟩
  · exact ⟨entry, hentry, hnew id b hge (index_lt_size hb) hb hops⟩

end BlockGraph

namespace Compiler

variable {σ : Type} {c c' c'' : Compiler σ} {s : Subroutine} {decl : Declaration} {main : BlockId}

/-! ### Hosts that have nothing lowered -/

/-- No host of a subroutine looks at the options or has anything lowered or declared. -/
def Heedless (c : Compiler σ) : Prop := ∀ d ∈ c.definitions, ∀ s handles, (d.body s handles).Oblivious

theorem Heedless.withStatus (h : c.Heedless) (s : Subroutine) (status : Status) : (c.withStatus s status).Heedless := by
  intro d hd
  obtain ⟨i, hi⟩ := List.getElem?_of_mem hd
  rw [getElem?_withStatus] at hi
  split at hi
  · obtain ⟨d₀, hd₀, rfl⟩ := Option.map_eq_some_iff.1 hi
    exact h d₀ (List.mem_of_getElem? hd₀)
  · exact h d (List.mem_of_getElem? hi)

/-- Nothing has changed but the slots and the state of the host, and more subroutines of such hosts are defined. -/
structure SetsUp (c c' : Compiler σ) : Prop where
  rest : c' = { c with slots := c'.slots, host := c'.host, definitions := c'.definitions }
  definitions : ∃ new : List (Definition σ), c'.definitions = c.definitions ++ new ∧
    ∀ d ∈ new, d.status = .undeclared ∧ ∀ s handles, (d.body s handles).Oblivious

theorem SetsUp.refl (c : Compiler σ) : c.SetsUp c := ⟨rfl, [], (List.append_nil _).symm, by simp⟩

theorem SetsUp.trans (h : c.SetsUp c') (h' : c'.SetsUp c'') : c.SetsUp c'' := by
  obtain ⟨new, hnew, hplain⟩ := h.definitions
  obtain ⟨new', hnew', hplain'⟩ := h'.definitions
  refine ⟨?_, new ++ new', by rw [hnew', hnew, List.append_assoc], fun d hd => ?_⟩
  · rw [h'.rest, h.rest]
  · exact (List.mem_append.1 hd).elim (hplain d) (hplain' d)

theorem SetsUp.of_allots (h : c.Allots c') : c.SetsUp c' :=
  ⟨by rw [h.rest], [], by rw [h.rest, List.append_nil], by simp⟩

theorem SetsUp.heedless (h : c.SetsUp c') (hc : c.Heedless) : c'.Heedless := by
  obtain ⟨new, hnew, hplain⟩ := h.definitions
  intro d hd
  rw [hnew] at hd
  exact (List.mem_append.1 hd).elim (hc d) fun hd => (hplain d hd).2

/-- Such a host changes nothing else, whether it succeeds or fails. -/
theorem setsUp_run {b : Builder σ} (hb : b.Oblivious) {declare : Subroutine → Declaring σ Declaration}
    {answer : Except CompileError Expr} (hrun : (b.run declare).run.run c = some (answer, c')) : c.SetsUp c' := by
  induction b generalizing c with
  | done body =>
    cases hrun
    exact .refl _
  | fail e =>
    cases hrun
    exact .refl _
  | newVariable type request target next ih =>
    rw [Builder.run, Declaring.run_bind, run_attempt, run_perform] at hrun
    rcases hnew : (newVariable type request target).run.run c with ⟨granted, c₁⟩
    simp only [hnew, Option.map_some] at hrun
    exact (SetsUp.of_allots (allots_newVariable hnew)).trans (ih granted (hb granted) hrun)
  | define name params returns body next _ ih =>
    have hdefined : c.SetsUp (c.define name params returns body).2 := by
      refine ⟨rfl, [⟨(c.define name params returns body).1, body, .undeclared⟩], rfl, fun d hd => ?_⟩
      obtain rfl := List.mem_singleton.1 hd
      exact ⟨rfl, hb.1⟩
    exact hdefined.trans (ih _ (hb.2 _) hrun)
  | lookup name next ih => exact ih _ (hb _) hrun
  | getState next ih => exact ih _ (hb _) hrun
  | setState state next ih =>
    have hset : c.SetsUp { c with host := state } := ⟨rfl, [], (List.append_nil _).symm, by simp⟩
    exact hset.trans (ih hb hrun)
  | declare => exact hb.elim
  | lower => exact hb.elim
  | inspect => exact hb.elim

/-! ### The worklist -/

/-- No host has anything lowered, and if the bodies of the declarations are candid, then from the main program and from
these declarations control may come to all operations. -/
structure Tidy (main : BlockId) (c : Compiler σ) : Prop where
  heedless : c.Heedless
  swept : (∀ decl ∈ c.declarations, decl.body.Everywhere Expr.Candid) →
    c.graph.Swept (main :: c.declarations.map (·.fragment.entry))

/-- A declaration that is noted comes to those noted before, whatever was defined meanwhile. -/
theorem declarations_of_begun {done : Compiler σ} {d : Definition σ} {new : List (Definition σ)}
    (hd : c.definition? s = some d) (hundeclared : d.status = .undeclared)
    (hdefs : done.definitions = (c.withStatus s .declaring).definitions ++ new) (decl : Declaration) :
    c.declarations ⊆ (done.withStatus s (.declared decl)).declarations ∧
      decl ∈ (done.withStatus s (.declared decl)).declarations := by
  obtain ⟨hplace, -⟩ := definition?_eq_some hd
  have hbegun : ∀ {i : Nat} {d' : Definition σ}, (c.withStatus s .declaring).definitions[i]? = some d' →
      done.definitions[i]? = some d' := by
    intro i d' hd'
    rw [hdefs, List.getElem?_append_left (List.getElem?_eq_some_iff.1 hd').1, hd']
  constructor
  · intro decl' hdecl'
    obtain ⟨i, d', hd', hstatus⟩ := mem_declarations.1 hdecl'
    -- this is another subroutine, since the one at hand was not declared
    have hne : s.id.number.toNat ≠ i := by
      rintro rfl
      obtain rfl := Option.some.inj (hplace.symm.trans hd')
      rw [hundeclared] at hstatus
      cases hstatus
    refine mem_declarations.2 ⟨i, d', ?_, hstatus⟩
    rw [getElem?_withStatus, if_neg hne]
    refine hbegun ?_
    rw [getElem?_withStatus, if_neg hne, hd']
  · refine mem_declarations.2 ⟨s.id.number.toNat, { d with status := .declared decl }, ?_, rfl⟩
    have hself : done.definitions[s.id.number.toNat]? = some { d with status := .declaring } := by
      refine hbegun ?_
      rw [getElem?_withStatus, if_pos rfl, hplace, Option.map_some]
    rw [getElem?_withStatus, if_pos rfl, hself, Option.map_some]

/-- What a declaration that is made adds. -/
theorem Tidy.declare (h : Tidy main c) {depth : Nat} (hrun : (declare depth s).run.run c = some (.ok decl, c')) :
    Tidy main c' := by
  cases declare_eq_ok_iff.1 hrun with
  | before => exact h
  | @now _ _ _ bound ready done d params body hd hundeclared hparams hbody hend =>
    have hhost := h.heedless d (List.mem_of_getElem? (definition?_eq_some hd).1) s (params.map (·.2))
    have hsetsUp : (c.withStatus s .declaring).SetsUp ready :=
      (SetsUp.of_allots (allots_bindParams hparams)).trans (setsUp_run hhost hbody)
    obtain ⟨-, -, -, code, lowered, hcode, hlower, rfl⟩ := Moment.conclude_eq_ok hend
    have hadvances := Moment.advances_lower hlower
    have hgraph : ready.graph = c.graph := by
      rw [hsetsUp.rest]
      rfl
    obtain ⟨new, hnew, -⟩ := hsetsUp.definitions
    have hdefs : Compiler.definitions { lowered with current := ready.current } =
        (c.withStatus s .declaring).definitions ++ new := by
      rw [← hnew, hadvances.rest]
    obtain ⟨hold, hself⟩ := declarations_of_begun hd hundeclared hdefs decl
    refine ⟨Heedless.withStatus (fun d' hd' => ?_) s _, fun hcandid => ?_⟩
    · exact hsetsUp.heedless (h.heedless.withStatus s _) d' (by rwa [hnew, ← hdefs])
    · have hswept := h.swept fun decl' hdecl' => hcandid decl' (hold hdecl')
      have hlowered := (lower_ensures code { ready with current := some s }).of_ok hlower
      have hreturn : (withReturn s decl.body).Everywhere Expr.Candid :=
        everywhere_withReturn (hcandid decl hself) (fun _ => trivial) (fun _ => trivial) trivial
      have hstored : code.Everywhere Expr.Candid :=
        everywhere_prologue hcode hreturn (fun _ => trivial) fun _ => rfl
      have hsweeps := hlowered.sweeps hstored _ (.refl _)
      rw [← hgraph] at hswept
      refine hswept.grow hadvances.extends' (List.cons_subset_cons main (List.map_subset _ hold)) ?_ hsweeps
      exact List.mem_cons_of_mem _ (List.mem_map_of_mem hself)

theorem Tidy.empties (h : Tidy main c) {depth rounds : Nat} (hempties : Empties depth rounds c c') : Tidy main c' := by
  induction hempties with
  | nothing => exact h
  | @next rounds c mid c' s rest decl _ hdeclare _ ih =>
    have htaken : Tidy main { c with pending := rest } := ⟨h.heedless, h.swept⟩
    exact ih (htaken.declare hdeclare)

/-- Control may come to all operations of a compilation, if all that was built is candid. -/
theorem swept_of_compile (hc : c.Heedless) (hgraph : c.graph.size = 0) {limit : Nat}
    {root : Expr} {compilation : Compilation} (hrun : (compile limit root).run.run c = some (.ok compilation, c'))
    (hroot : root.Everywhere Expr.Candid)
    (hcandid : ∀ decl ∈ compilation.declarations, decl.body.Everywhere Expr.Candid) :
    compilation.graph.Swept (compilation.fragments.map (·.entry)) := by
  obtain ⟨main, lowered, hlower, hpending, rfl⟩ := Moment.compile_eq_ok hrun
  have hadvances := Moment.advances_lower hlower
  have hlowered := (lower_ensures root { c with current := none }).of_ok hlower
  have hsweeps := hlowered.sweeps hroot _ (.refl _)
  have htidy : Tidy main.entry lowered := by
    refine ⟨fun d hd => hc d ?_, fun _ => ?_⟩
    · rw [hadvances.rest] at hd
      exact hd
    · have hempty : Swept c.graph [] := fun id b hb => absurd (index_lt_size hb) (by omega)
      exact hempty.grow hadvances.extends' (List.nil_subset _) (List.mem_cons_self ..) hsweeps
  have hswept := (htidy.empties (declarePending_eq_ok_iff.1 hpending)).swept hcandid
  rwa [Compilation.fragments, List.map_cons, List.map_map]

end Compiler

/-! ### Programs -/

/-- A version has all operations of a program. -/
def Program.Available (p : Program) (version : Nat) : Prop :=
  ∀ object ∈ p.code, ∀ op ∈ object.ops.toList, op.introducedIn ≤ version

namespace Compilation

variable {compilation : Compilation} {program : Program} {version : Nat}

/-- Each code object is the layout of a fragment, and each fragment is laid out in a code object. -/
theorem layouts_of_assemble (h : compilation.assemble = .ok program) :
    (∀ object ∈ program.code, ∃ f ∈ compilation.fragments,
      compilation.graph.linearize f.entry = .ok object.ops.toList) ∧
    ∀ f ∈ compilation.fragments, ∃ object ∈ program.code,
      compilation.graph.linearize f.entry = .ok object.ops.toList := by
  obtain ⟨main, subs, hmain, hcode, hsubs⟩ := Compiler.code_of_assemble h
  have hlayout : ∀ {decl : Declaration} {object : CodeObject}, codeObject compilation.graph decl = .ok object →
      compilation.graph.linearize decl.fragment.entry = .ok object.ops.toList := by
    intro decl object hobject
    obtain ⟨ops, hops, hobject⟩ := except_bind_eq_ok.1 hobject
    cases hobject
    exact hops
  rw [hcode]
  refine ⟨fun object hobject => ?_, fun f hf => ?_⟩
  · rcases List.mem_cons.1 hobject with rfl | hobject
    · exact ⟨compilation.main, List.mem_cons_self .., hmain⟩
    · obtain ⟨decl, hdecl, hof⟩ := exists_of_forall₂ hsubs hobject
      exact ⟨decl.fragment, List.mem_cons_of_mem _ (List.mem_map_of_mem hdecl), hlayout hof⟩
  · rcases List.mem_cons.1 hf with rfl | hf
    · exact ⟨_, List.mem_cons_self .., hmain⟩
    · obtain ⟨decl, hdecl, rfl⟩ := List.mem_map.1 hf
      obtain ⟨object, hobject, hof⟩ := exists_of_forall₂ hsubs.flip hdecl
      exact ⟨object, List.mem_cons_of_mem _ hobject, hlayout hof⟩

/-- The layout brings nothing into a program that the version lacks. -/
theorem program_available (h : compilation.assemble = .ok program) (havailable : compilation.graph.Available version)
    (hlow : Options.lowestVersion ≤ version) (hnarrow : compilation.graph.Narrow) : program.Available version := by
  intro object hobject op hop
  obtain ⟨f, -, hlinear⟩ := (layouts_of_assemble h).1 object hobject
  exact havailable.of_linearize hlow hnarrow hlinear hop

/-- All operations to which control may come from the fragments are in the program. -/
theorem available_of_program (h : compilation.assemble = .ok program)
    (hswept : compilation.graph.Swept (compilation.fragments.map (·.entry))) (havailable : program.Available version) :
    compilation.graph.Available version := by
  intro ops hops op hop
  obtain ⟨id, b, hb, rfl⟩ := mem_code_iff.1 hops
  obtain ⟨start, hstart, hreach⟩ := hswept id b hb (List.ne_nil_of_mem hop)
  obtain ⟨f, hf, rfl⟩ := List.mem_map.1 hstart
  obtain ⟨object, hobject, hlinear⟩ := (layouts_of_assemble h).2 f hf
  exact havailable object hobject op (mem_linearize_of_reaches hlinear hreach hb hop)

end Compilation

end ScratchMachine
