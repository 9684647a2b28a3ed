import ScratchMachine.Proofs.DeclarationStates
import ScratchMachine.Proofs.Pending

/-!
# The worklist of a compilation

A compilation declares the subroutines that wait, one after another, and their bodies may let others wait.  If no body
is built with requests for further subroutines, this comes to an end, whatever calls what, and then exactly the subroutines
that the main program needs have been declared, each once.

* `Compiler.Needs`: the subroutines that a main program needs.
* `Compiler.Working`: what holds whenever the next subroutine is taken from those that wait.
* `Compiler.declares_what_is_needed`: what a compilation declares.
-/

namespace ScratchMachine

open BlockGraph Fallible Declaring

/-! ### Plain bodies -/

/-- The host asks for variables, and looks at what there is, but neither defines nor declares nor lowers anything. -/
def Builder.Plain {σ : Type} : Builder σ → Prop
  | .done _ | .fail _ => True
  | .newVariable _ _ _ next => ∀ answer, (next answer).Plain
  | .lookup _ next => ∀ answer, (next answer).Plain
  | .inspect next => ∀ options graph, (next options graph).Plain
  | .getState next => ∀ state, (next state).Plain
  | .setState _ next => next.Plain
  | .define .. | .declare .. | .lower .. => False

/-- The subroutine whose body the host has to build. -/
def Event.invocation? : Event → Option Subroutine
  | .given _ => none
  | .invoked s _ => some s

/-- The subroutines whose bodies hosts have to build, in their order. -/
def invocations (events : List Event) : List Subroutine := events.filterMap Event.invocation?

@[simp] theorem invocations_append (events events' : List Event) :
    invocations (events ++ events') = invocations events ++ invocations events' := List.filterMap_append ..

namespace Compiler

variable {σ : Type} {c c' : Compiler σ} {s : Subroutine} {d : Definition σ}

/-- The compilers on which only variables were asked for and subroutines with plain bodies defined. -/
inductive Prepared : Compiler σ → Prop
  | create {key : Nat} {options : Options} {host : σ} {c : Compiler σ} : create key options host = .ok c → Prepared c
  | newVariable {c : Compiler σ} (type : ValueType) (request : SlotRequest) (target : Option Variable) : Prepared c →
      Prepared ((newVariable type request target).run.run c).2
  | define {c : Compiler σ} (name : String) (params : List Param) (returns : ValueType) {body : Body σ} :
      (∀ s handles, (body s handles).Plain) → Prepared c → Prepared (c.define name params returns body).2

theorem Prepared.reachable (h : c.Prepared) : c.Reachable := by
  induction h with
  | create h => exact .create h
  | newVariable type request target _ ih => exact .newVariable type request target ih
  | define name params returns _ _ ih => exact .define name params returns _ ih

/-- Nothing waits, nothing has been declared, and all bodies are plain. -/
structure Fresh (c : Compiler σ) : Prop where
  pending : c.pending = []
  undeclared : ∀ (i : Nat) (d : Definition σ), c.definitions[i]? = some d → d.status = .undeclared
  plain : ∀ (i : Nat) (d : Definition σ), c.definitions[i]? = some d → ∀ s handles, (d.body s handles).Plain

theorem Fresh.declarations_eq_nil (h : c.Fresh) : c.declarations = [] := by
  refine List.eq_nil_iff_forall_not_mem.2 fun decl hdecl => ?_
  obtain ⟨i, d, hd, hstatus⟩ := mem_declarations.1 hdecl
  rw [h.undeclared i d hd] at hstatus
  cases hstatus

theorem Prepared.fresh (h : c.Prepared) : c.Fresh := by
  induction h with
  | create h =>
    obtain ⟨-, -, h⟩ := except_bind_eq_ok.1 h
    cases h
    exact ⟨rfl, by simp, by simp⟩
  | newVariable type request target _ ih =>
    rcases hnew : (Compiler.newVariable type request target).run.run _ with ⟨answer, c'⟩
    have hallots := allots_newVariable hnew
    rw [hallots.rest]
    exact ⟨ih.pending, ih.undeclared, ih.plain⟩
  | @define c name params returns body hbody _ ih =>
    have hnew : ∀ (i : Nat) (d : Definition σ), (c.define name params returns body).2.definitions[i]? = some d →
        c.definitions[i]? = some d ∨ d.status = .undeclared ∧ d.body = body := by
      intro i d hd
      rw [Compiler.define, List.getElem?_append, List.getElem?_singleton] at hd
      split at hd
      · exact .inl hd
      · split at hd
        · cases hd
          exact .inr ⟨rfl, rfl⟩
        · cases hd
    refine ⟨ih.pending, fun i d hd => ?_, fun i d hd => ?_⟩
    · exact (hnew i d hd).elim (ih.undeclared i d) And.left
    · rcases hnew i d hd with hold | ⟨-, heq⟩
      · exact ih.plain i d hold
      · rw [heq]
        exact hbody

/-! ### Bodies of declared subroutines -/

theorem calls_withReturn {body : Expr} {callee : Subroutine} : (withReturn s body).Calls callee ↔ body.Calls callee := by
  have hnothing : ¬ Expr.retNothing.Calls callee := by
    rw [Expr.calls_iff]
    simp [Expr.parts]
  unfold withReturn
  split
  · rfl
  · split
    · rw [Expr.calls_iff]
      simp [Expr.parts, hnothing]
    · rw [Expr.calls_iff]
      simp [Expr.parts]

/-- The operations that store the arguments call nothing. -/
theorem calls_prologue {holders : List Variable} {tail code : Expr} (hcode : prologue holders tail = .ok code)
    {callee : Subroutine} : code.Calls callee ↔ tail.Calls callee := by
  obtain ⟨stores, rfl, hstores⟩ := prologue_eq_ok hcode
  have hnone : ∀ e ∈ stores, ¬ e.Calls callee := by
    intro e he
    obtain ⟨slot, rfl⟩ := hstores e he
    rw [Expr.calls_iff]
    simp [Expr.parts, Expr.ofOp]
  rw [Expr.calls_iff]
  simp only [Expr.parts, reduceCtorEq, exists_const, false_or]
  constructor
  · rintro ⟨part, hpart, hcalls⟩
    rcases List.mem_append.1 hpart with hstore | htail
    · exact absurd hcalls (hnone part hstore)
    · rwa [List.mem_singleton.1 htail] at hcalls
  · exact fun hcalls => ⟨tail, by simp, hcalls⟩

/-! ### One declaration -/

/-- A builder comes to its end, whatever declaring does, and changes nothing but the slots and the state of the host. -/
structure Completes (b : Builder σ) (c : Compiler σ) (answer : Except CompileError Expr) (c' : Compiler σ)
    (happened : List Event) : Prop where
  run : ∀ declare, (b.run declare).run.run c = some (answer, c')
  leads : ∀ ongoing, Moment.Leads ⟨c, .host b, ongoing⟩ happened ⟨c', .host (.ended answer), ongoing⟩
  uninvoked : invocations happened = []
  rest : c' = { c with slots := c'.slots, host := c'.host }

theorem Completes.first {b b' : Builder σ} {c₁ : Compiler σ} {answer : Except CompileError Expr}
    {given happened : List Event}
    (h : Completes b' c₁ answer c' happened) (hrun : ∀ declare, (b.run declare).run.run c = (b'.run declare).run.run c₁)
    (hstep : ∀ ongoing, Moment.step ⟨c, .host b, ongoing⟩ = some (⟨c₁, .host b', ongoing⟩, given))
    (hgiven : invocations given = []) (hrest : c₁ = { c with slots := c₁.slots, host := c₁.host }) :
    Completes b c answer c' (given ++ happened) where
  run declare := (hrun declare).trans (h.run declare)
  leads ongoing := .step (hstep ongoing) (h.leads ongoing)
  uninvoked := by rw [invocations_append, hgiven, h.uninvoked, List.append_nil]
  rest := by rw [h.rest, hrest]

theorem completes_plain {b : Builder σ} (hb : b.Plain) (c : Compiler σ) :
    ∃ answer c' happened, Completes b c answer c' happened := by
  induction b generalizing c with
  | done body => exact ⟨.ok body, c, [], fun _ => rfl, fun _ => .here _, rfl, rfl⟩
  | fail e => exact ⟨.error e, c, [], fun _ => rfl, fun _ => .here _, rfl, rfl⟩
  | newVariable type request target next ih =>
    rcases hnew : (Compiler.newVariable type request target).run.run c with ⟨granted, c₁⟩
    obtain ⟨answer, c', happened, h⟩ := ih granted (hb granted) c₁
    refine ⟨answer, c', granted.toOption.toList.map .given ++ happened,
      h.first (fun declare => ?_) (fun ongoing => ?_) ?_ ?_⟩
    · rw [Builder.run, Declaring.run_bind, run_attempt, run_perform, hnew]
      rfl
    · simp only [Moment.step, hnew]
    · cases granted <;> rfl
    · rw [(allots_newVariable hnew).rest]
  | lookup name next ih =>
    obtain ⟨answer, c', happened, h⟩ := ih (c.lookup name) (hb _) c
    exact ⟨answer, c', _, h.first (fun _ => rfl) (fun _ => rfl) rfl rfl⟩
  | inspect next ih =>
    obtain ⟨answer, c', happened, h⟩ := ih c.options c.graph (hb _ _) c
    exact ⟨answer, c', _, h.first (fun _ => rfl) (fun _ => rfl) rfl rfl⟩
  | getState next ih =>
    obtain ⟨answer, c', happened, h⟩ := ih c.host (hb _) c
    exact ⟨answer, c', _, h.first (fun _ => rfl) (fun _ => rfl) rfl rfl⟩
  | setState state next ih =>
    obtain ⟨answer, c', happened, h⟩ := ih hb { c with host := state }
    exact ⟨answer, c', _, h.first (fun _ => rfl) (fun _ => rfl) rfl rfl⟩
  | define => exact hb.elim
  | declare => exact hb.elim
  | lower => exact hb.elim

theorem definitions_withStatus_twice {status status' : Status}
    (hdefs : c'.definitions = (c.withStatus s status).definitions) :
    (c'.withStatus s status').definitions = (c.withStatus s status').definitions := by
  refine List.ext_getElem? fun i => ?_
  rw [getElem?_withStatus, hdefs, getElem?_withStatus, getElem?_withStatus]
  split
  · rw [Option.map_map]
    rfl
  · rfl

/-- What a declaration of a subroutine that was not begun has changed, when it has been made. -/
structure Declares (s : Subroutine) (decl : Declaration) (c c' : Compiler σ) : Prop where
  subroutine : decl.subroutine = s
  definitions : c'.definitions = (c.withStatus s (.declared decl)).definitions
  awaiting : c.pending ⊆ c'.pending
  new : ∀ t ∈ c'.pending, t ∈ c.pending ∨ decl.body.Calls t ∧
    ∃ d, (c.withStatus s .declaring).definition? t = some d ∧ d.status = .undeclared
  distinct : (c.pending.map (·.id)).Nodup → (c'.pending.map (·.id)).Nodup
  called : ∀ t, decl.body.Calls t → c'.Awaited t.id ∧ c'.Defines t

/-- Declaring a subroutine with a plain body has an answer, and no body but its own is built. -/
theorem declare_plain (hd : c.definition? s = some d) (hundeclared : d.status = .undeclared)
    (hplain : ∀ s handles, (d.body s handles).Plain) :
    ∃ answer c' happened, (∀ depth, (declare (depth + 1) s).run.run c = some (answer, c')) ∧
      (∀ next ongoing, Moment.Leads ⟨c, .declare s next, ongoing⟩ happened ⟨c', next answer, ongoing⟩) ∧
      ∀ decl, answer = .ok decl → invocations happened = [s] ∧ Declares s decl c c' := by
  obtain ⟨-, hhandle⟩ := definition?_eq_some hd
  have hstep : ∀ next ongoing, Moment.step ⟨c, .declare s next, ongoing⟩ = some (Moment.request c s next ongoing) :=
    fun _ _ => rfl
  simp only [Moment.request, hd, hundeclared] at hstep
  have hrun : ∀ depth, (declare (depth + 1) s).run.run c =
      ((build (declare depth) d).run.run (c.withStatus s .declaring)).map fun ended =>
        (ended.1, ended.2.record s ended.1) := by
    intro depth
    rw [declare, run_declareBy]
    simp only [hd, hundeclared]
  simp only [run_build, hhandle] at hrun
  rcases hparams : (s.params.mapM bindParam).run.run (c.withStatus s .declaring) with ⟨e | params, c₁⟩
  · simp only [hparams] at hrun hstep
    exact ⟨.error e, _, [], hrun, fun next ongoing => .single (hstep next ongoing), fun decl h => by cases h⟩
  simp only [hparams] at hrun hstep
  obtain ⟨built, c₂, happened, hbody⟩ := completes_plain (hplain s (params.map (·.2))) c₁
  simp only [hbody.run, Option.map_some] at hrun
  rcases hend : c₂.conclude s (params.map (·.1)) built with ⟨answer, c₃⟩
  simp only [hend] at hrun
  refine ⟨answer, c₃.record s answer, [.invoked s (params.map (·.1))] ++ (happened ++ []), hrun, fun next ongoing => ?_, ?_⟩
  · have hfinish := Moment.step_ended c₂ built ⟨s, params.map (·.1), next⟩ ongoing
    rw [Moment.finish, hend] at hfinish
    exact .step (hstep next ongoing) ((hbody.leads _).trans (.single hfinish))
  rintro decl rfl
  refine ⟨by rw [List.append_nil, invocations_append, hbody.uninvoked, List.append_nil]; rfl, ?_⟩
  have hallots := allots_bindParams hparams
  obtain ⟨-, hsub, -, code, c₄, hcode, hlower, rfl⟩ := Moment.conclude_eq_ok hend
  have hnotes := (LowersTo.of_run hlower).notes
  have hchecked := (LowersTo.of_run hlower).passes
  have hcalls : ∀ t, code.Calls t ↔ decl.body.Calls t := fun t => (calls_prologue hcode).trans calls_withReturn
  have hdefs : c₂.definitions = (c.withStatus s .declaring).definitions := by rw [hbody.rest, hallots.rest]
  have hpending : c₂.pending = c.pending := by
    rw [hbody.rest, hallots.rest]
    rfl
  have hdefs₄ : c₄.definitions = c₂.definitions := hnotes.definitions
  refine ⟨hsub, definitions_withStatus_twice (hdefs₄.trans hdefs), hpending ▸ hnotes.awaiting, fun t ht => ?_,
    hpending ▸ hnotes.distinct, fun t ht => ⟨?_, ?_⟩⟩
  · rcases hnotes.new t ht with hold | ⟨hnew, d', hd', hstatus⟩
    · exact .inl (hpending ▸ hold)
    · exact .inr ⟨(hcalls t).1 hnew, d', (definition?_congr hdefs.symm).trans hd', hstatus⟩
  · have hawaited : c₄.Awaited t.id := hnotes.awaited t ((hcalls t).2 ht)
    exact awaited_withStatus hawaited (.inl (by simp))
  · obtain ⟨args, hwithin⟩ := (hcalls t).2 ht
    obtain ⟨d', hd'⟩ := (hchecked.within hwithin).2
    have hdefines : c₄.Defines t := ⟨d', (definition?_congr hdefs₄).trans hd'⟩
    exact (evolves_withStatus c₄ s _).defines t hdefines

/-- A declaration that is noted comes to those noted before. -/
theorem declarations_withStatus_perm (hd : c.definition? s = some d) (hundeclared : d.status = .undeclared)
    (decl : Declaration) : (c.withStatus s (.declared decl)).declarations.Perm (decl :: c.declarations) := by
  obtain ⟨hget, -⟩ := definition?_eq_some hd
  unfold withStatus declarations
  dsimp only
  generalize s.id.number.toNat = i at hget
  generalize c.definitions = l at hget
  induction l generalizing i with
  | nil => cases hget
  | cons a l ih =>
    cases i with
    | zero =>
      cases hget
      rw [List.modify_zero_cons, List.filterMap_cons, List.filterMap_cons, hundeclared]
    | succ i =>
      have hrest := ih i hget
      rw [List.modify_succ_cons, List.filterMap_cons, List.filterMap_cons]
      split
      · exact hrest
      · exact (hrest.cons _).trans (.swap ..)

/-! ### The worklist -/

/-- The subroutines that a main program needs, if these are the declarations: those that it calls, and those that the
body of one of them calls. -/
inductive Needs (root : Expr) (decls : List Declaration) : Subroutine → Prop
  | main {s : Subroutine} : root.Calls s → Needs root decls s
  | body {decl : Declaration} {s : Subroutine} : decl ∈ decls → Needs root decls decl.subroutine → decl.body.Calls s →
      Needs root decls s

theorem Needs.mono {root : Expr} {decls decls' : List Declaration} (h : Needs root decls s) (hsub : decls ⊆ decls') :
    Needs root decls' s := by
  induction h with
  | main hcalls => exact .main hcalls
  | body hdecl _ hcalls ih => exact .body (hsub hdecl) ih hcalls

/-- Whenever the next subroutine is taken from those that wait, the waiting ones have not been begun, each waits once, all
that are declared or wait are needed, and all that are called are declared or wait. -/
structure Working (root : Expr) (c : Compiler σ) : Prop where
  sound : c.Sound
  plain : ∀ (i : Nat) (d : Definition σ), c.definitions[i]? = some d → ∀ s handles, (d.body s handles).Plain
  idle : Steady.Idle c
  waiting : ∀ s ∈ c.pending, ∃ d, c.definition? s = some d ∧ d.status = .undeclared
  distinct : (c.pending.map (·.id)).Nodup
  needed : ∀ s, s ∈ c.pending ∨ s ∈ c.declarations.map (·.subroutine) → Needs root c.declarations s
  called : ∀ s, root.Calls s ∨ (∃ decl ∈ c.declarations, decl.body.Calls s) → c.Awaited s.id ∧ c.Defines s

variable {root : Expr} {rest : List Subroutine} {decl : Declaration}

/-- A subroutine that still waits after another was declared has not been begun. -/
theorem undeclared_withStatus {t : Subroutine} {status : Status}
    (h : ∃ d, (c.withStatus s .declaring).definition? t = some d ∧ d.status = .undeclared) :
    ∃ d, (c.withStatus s status).definition? t = some d ∧ d.status = .undeclared := by
  obtain ⟨d, hd, hundeclared⟩ := h
  have hne : s.id.number.toNat ≠ t.id.number.toNat := by
    intro heq
    have hget := (definition?_eq_some hd).1
    rw [getElem?_withStatus, if_pos heq] at hget
    obtain ⟨d', -, rfl⟩ := Option.map_eq_some_iff.1 hget
    cases hundeclared
  rw [definition?_withStatus_of_ne hne] at hd ⊢
  exact ⟨d, hd, hundeclared⟩

namespace Declares

theorem perm (h : Declares s decl c c') (hd : c.definition? s = some d) (hundeclared : d.status = .undeclared) :
    c'.declarations.Perm (decl :: c.declarations) := by
  have hnoted := declarations_withStatus_perm hd hundeclared decl
  unfold declarations at hnoted ⊢
  rwa [h.definitions]

/-- The definition of a subroutine is what it was, but that the one that was declared is noted as such. -/
theorem definition_cases (h : Declares s decl c c') {i : Nat} {d' : Definition σ} (hd' : c'.definitions[i]? = some d') :
    ∃ d₀, c.definitions[i]? = some d₀ ∧ (d' = d₀ ∨ d' = { d₀ with status := .declared decl }) := by
  rw [h.definitions, getElem?_withStatus] at hd'
  split at hd'
  · obtain ⟨d₀, hd₀, rfl⟩ := Option.map_eq_some_iff.1 hd'
    exact ⟨d₀, hd₀, .inr rfl⟩
  · exact ⟨d', hd', .inl rfl⟩

theorem awaited (h : Declares s decl c c') (hd : c.definition? s = some d) {id : SubroutineId}
    (hid : id = s.id ∨ c.Awaited id) : c'.Awaited id := by
  rcases hid with rfl | hid
  · refine .inr ⟨{ d with status := .declared decl }, ?_, by simp⟩
    rw [h.definitions, getElem?_withStatus, if_pos rfl, (definition?_eq_some hd).1, Option.map_some]
  · have hawaited : (c.withStatus s (.declared decl)).Awaited id := awaited_withStatus hid (.inl (by simp))
    rcases hawaited with ⟨t, ht, rfl⟩ | hbegun
    · exact .inl ⟨t, h.awaiting ht, rfl⟩
    · exact .inr (h.definitions ▸ hbegun)

theorem defines (h : Declares s decl c c') {t : Subroutine} (ht : c.Defines t) : c'.Defines t := by
  obtain ⟨d', hd'⟩ := (evolves_withStatus c s (.declared decl)).defines t ht
  exact ⟨d', (definition?_congr h.definitions).trans hd'⟩

/-- Those whose declaration was not begun still are not. -/
theorem undeclared (h : Declares s decl c c') {t : Subroutine}
    (ht : ∃ d, (c.withStatus s .declaring).definition? t = some d ∧ d.status = .undeclared) :
    ∃ d, c'.definition? t = some d ∧ d.status = .undeclared := by
  have hnoted : ∃ d, (c.withStatus s (.declared decl)).definition? t = some d ∧ d.status = .undeclared :=
    undeclared_withStatus ht
  obtain ⟨d', hd', hstatus⟩ := hnoted
  exact ⟨d', (definition?_congr h.definitions).trans hd', hstatus⟩

end Declares

/-- The invariant is kept when the next subroutine is declared. -/
theorem Working.declares (h : Working root c) (hpending : c.pending = s :: rest) (hd : c.definition? s = some d)
    (hundeclared : d.status = .undeclared) (hdeclares : Declares s decl { c with pending := rest } c') (hsound : c'.Sound) :
    Working root c' ∧ c'.declarations.Perm (decl :: c.declarations) := by
  have hperm : c'.declarations.Perm (decl :: c.declarations) := hdeclares.perm hd hundeclared
  have hsub : c.declarations ⊆ c'.declarations := fun decl' hdecl' => hperm.mem_iff.2 (List.mem_cons_of_mem _ hdecl')
  have hdistinct := h.distinct
  rw [hpending, List.map_cons, List.nodup_cons] at hdistinct
  have hself : Needs root c'.declarations s := (h.needed s (.inl (by simp [hpending]))).mono hsub
  have hbody : ∀ t, decl.body.Calls t → Needs root c'.declarations t := fun t ht =>
    .body (hperm.mem_iff.2 (List.mem_cons_self ..)) (hdeclares.subroutine ▸ hself) ht
  have hawaited : ∀ id, c.Awaited id → c'.Awaited id := by
    intro id hid
    refine hdeclares.awaited hd ?_
    rcases hid with ⟨t, ht, rfl⟩ | hbegun
    · rw [hpending] at ht
      rcases List.mem_cons.1 ht with rfl | ht
      · exact .inl rfl
      · exact .inr (.inl ⟨t, ht, rfl⟩)
    · exact .inr (.inr hbegun)
  refine ⟨⟨hsound, fun i d' hd' => ?_, fun i d' hd' => ?_, fun t ht => ?_, hdeclares.distinct hdistinct.2, fun t ht => ?_,
    fun t ht => ?_⟩, hperm⟩
  · obtain ⟨d₀, hd₀, rfl | rfl⟩ := hdeclares.definition_cases hd'
    · exact h.plain i d' hd₀
    · exact h.plain i d₀ hd₀
  · obtain ⟨d₀, hd₀, rfl | rfl⟩ := hdeclares.definition_cases hd'
    · exact h.idle i d' hd₀
    · simp
  · rcases hdeclares.new t ht with hold | ⟨-, hnew⟩
    · -- it waited before, and is another one than the subroutine that was taken
      obtain ⟨d', hd', hstatus⟩ := h.waiting t (by rw [hpending]; exact List.mem_cons_of_mem _ hold)
      have hne : s.id.number.toNat ≠ t.id.number.toNat := by
        intro heq
        refine hdistinct.1 ?_
        rw [id_eq_of_toNat heq]
        exact List.mem_map_of_mem hold
      exact hdeclares.undeclared ⟨d', (definition?_withStatus_of_ne hne).trans hd', hstatus⟩
    · exact hdeclares.undeclared hnew
  · rcases ht with ht | ht
    · rcases hdeclares.new t ht with hold | ⟨hcalls, -⟩
      · exact (h.needed t (.inl (by rw [hpending]; exact List.mem_cons_of_mem _ hold))).mono hsub
      · exact hbody t hcalls
    · obtain ⟨decl', hdecl', rfl⟩ := List.mem_map.1 ht
      rcases List.mem_cons.1 (hperm.mem_iff.1 hdecl') with rfl | hold
      · rwa [hdeclares.subroutine]
      · exact (h.needed _ (.inr (List.mem_map_of_mem hold))).mono hsub
  · have hold : root.Calls t ∨ (∃ decl ∈ c.declarations, decl.body.Calls t) → c'.Awaited t.id ∧ c'.Defines t := fun ht =>
      ⟨hawaited _ (h.called t ht).1, hdeclares.defines (h.called t ht).2⟩
    rcases ht with hcalls | ⟨decl', hdecl', hcalls⟩
    · exact hold (.inl hcalls)
    · rcases List.mem_cons.1 (hperm.mem_iff.1 hdecl') with rfl | hmem
      · exact hdeclares.called t hcalls
      · exact hold (.inr ⟨decl', hmem, hcalls⟩)

/-- A subroutine that was not begun leaves room for one more declaration. -/
theorem length_declarations_lt (hd : c.definition? s = some d) (hundeclared : d.status = .undeclared) :
    c.declarations.length < c.definitions.length := by
  let decl : Declaration := ⟨s, default, default, []⟩
  have hlength := (declarations_withStatus_perm hd hundeclared decl).length_eq
  have hle : (c.withStatus s (.declared decl)).declarations.length ≤
    (c.withStatus s (.declared decl)).definitions.length :=
    List.length_filterMap_le ..
  rw [List.length_cons] at hlength
  rw [withStatus, List.length_modify] at hle
  change (c.withStatus s (.declared decl)).declarations.length ≤ _ at hle
  omega

theorem declarePending_nil (depth rounds : Nat) (h : c.pending = []) :
    (declarePending depth rounds).run.run c = some (.ok (), c) := by
  cases rounds <;> rw [declarePending, Declaring.run_bind, Steady.run_get] <;> simp only [h] <;> rfl

theorem declarePending_cons (depth rounds : Nat) (h : c.pending = s :: rest) :
    (declarePending depth (rounds + 1)).run.run c =
      match (declare depth s).run.run { c with pending := rest } with
      | some (.ok _, c') => (declarePending depth rounds).run.run c'
      | some (.error e, c') => some (.error e, c')
      | none => none := by
  rw [declarePending, Declaring.run_bind, Steady.run_get]
  simp only [h]
  show (discard (declare depth s) >>= fun _ => declarePending depth rounds).run.run { c with pending := rest } = _
  rw [Declaring.run_bind, run_discard]
  rcases (declare depth s).run.run { c with pending := rest } with _ | ⟨e | decl, c'⟩ <;> rfl

/-- What is left of the worklist comes to its end: with an error, or with everything declared. -/
theorem Working.settles (h : Working root c) :
    ∃ answer c' happened, (∀ depth rounds, c.definitions.length ≤ depth →
        c.definitions.length ≤ c.declarations.length + rounds →
        (declarePending depth rounds).run.run c = some (answer, c')) ∧
      Moment.Leads ⟨c, .settle, []⟩ happened (Moment.settled c' answer) ∧
      ∀ done, answer = .ok done → Working root c' ∧ c'.pending = [] ∧
        (c'.declarations.map (·.subroutine)).Perm (invocations happened ++ c.declarations.map (·.subroutine)) := by
  induction hn : c.definitions.length - c.declarations.length using Nat.strongRecOn generalizing c with
  | ind n ih =>
    cases hpending : c.pending with
    | nil => exact ⟨.ok (), c, [], fun depth rounds _ _ => declarePending_nil depth rounds hpending, .here _,
        fun _ _ => ⟨h, hpending, .refl _⟩⟩
    | cons s rest =>
      obtain ⟨d, hd, hundeclared⟩ := h.waiting s (by simp [hpending])
      obtain ⟨answer, c₁, happened, hrun, hleads, hok⟩ :=
        declare_plain (c := { c with pending := rest }) hd hundeclared (h.plain _ d (definition?_eq_some hd).1)
      have hplace : s.id.number.toNat < c.definitions.length :=
        (List.getElem?_eq_some_iff.1 (definition?_eq_some hd).1).1
      have hstep : Moment.step ⟨c, .settle, []⟩ =
          some (⟨{ c with pending := rest }, .declare s .afterDeclaring, []⟩, []) := by
        simp only [Moment.step, hpending]
      have hroom := length_declarations_lt hd hundeclared
      -- there is depth for its body and a round for it, since it is not declared yet
      have hround : ∀ depth rounds, c.definitions.length ≤ depth →
        c.definitions.length ≤ c.declarations.length + rounds →
          ∃ depth' rounds', depth = depth' + 1 ∧ rounds = rounds' + 1 := fun depth rounds _ _ =>
        ⟨depth - 1, rounds - 1, by omega, by omega⟩
      cases answer with
      | error e =>
        refine ⟨.error e, c₁, _, fun depth rounds hdepth hrounds => ?_, .step hstep (hleads .afterDeclaring []),
          fun _ h => by cases h⟩
        obtain ⟨depth', rounds', rfl, rfl⟩ := hround depth rounds hdepth hrounds
        rw [declarePending_cons _ _ hpending, hrun]
      | ok decl =>
        obtain ⟨hinvoked, hdeclares⟩ := hok decl rfl
        have hsound : Sound { c with pending := rest } := (h.sound.keeps_of_eq rfl rfl).1
        have hkeeps := (safe_declare enduring_keeps 1 s).holds hsound.keeps (hrun 0)
        obtain ⟨hworking, hperm⟩ := h.declares hpending hd hundeclared hdeclares hkeeps.1
        have hlength : c₁.definitions.length = c.definitions.length := by
          rw [hdeclares.definitions]
          exact List.length_modify ..
        have hmade := hperm.length_eq
        rw [List.length_cons] at hmade
        obtain ⟨answer', c₂, later, hrest, hleads', hdone⟩ := ih _ (by omega) hworking rfl
        refine ⟨answer', c₂, _, fun depth rounds hdepth hrounds => ?_,
          .step hstep ((hleads .afterDeclaring []).trans hleads'),
          fun done hanswer => ?_⟩
        · obtain ⟨depth', rounds', rfl, rfl⟩ := hround depth rounds hdepth hrounds
          rw [declarePending_cons _ _ hpending, hrun]
          exact hrest (depth' + 1) rounds' (by omega) (by omega)
        · obtain ⟨hworking', hnone, hperm'⟩ := hdone done hanswer
          refine ⟨hworking', hnone, hperm'.trans ?_⟩
          have hfirst : (c₁.declarations.map (·.subroutine)).Perm (s :: c.declarations.map (·.subroutine)) := by
            have hmap := hperm.map (·.subroutine)
            rwa [List.map_cons, hdeclares.subroutine] at hmap
          rw [List.nil_append, invocations_append, hinvoked, List.append_assoc]
          exact (hfirst.append_left _).trans List.perm_middle

/-- At the end, what has been declared is what is needed. -/
theorem Working.needs_iff (h : Working root c) (hpending : c.pending = []) (s : Subroutine) :
    s ∈ c.declarations.map (·.subroutine) ↔ Needs root c.declarations s := by
  refine ⟨fun hs => h.needed s (.inr hs), fun hs => ?_⟩
  have hcalled : root.Calls s ∨ ∃ decl ∈ c.declarations, decl.body.Calls s := by
    cases hs with
    | main hcalls => exact .inl hcalls
    | body hdecl _ hcalls => exact .inr ⟨_, hdecl, hcalls⟩
  obtain ⟨hawaited, hdefines⟩ := h.called s hcalled
  obtain ⟨decl, hdecl, hid⟩ := Steady.declared_of_awaited h.sound h.idle hpending hawaited
  exact List.mem_map.2 ⟨decl, hdecl, h.sound.subroutine_eq hdecl hdefines hid⟩

/-- When the main program has been lowered, what it calls waits. -/
theorem Fresh.working (h : c.Fresh) (hsound : c.Sound) {main : Fragment}
    (hlower : (lower root).run.run { c with current := none } = (.ok main, c')) : Working root c' := by
  have hsound₀ : Sound { c with current := none } := (hsound.keeps_of_eq rfl rfl).1
  have hlowered := (lower_ensures root { c with current := none }).of_ok hlower
  have hnotes := (LowersTo.of_run hlower).notes
  have hchecked := (LowersTo.of_run hlower).passes
  have hdefs : c'.definitions = c.definitions := hnotes.definitions
  have hnone : c'.declarations = [] := by
    rw [declarations, hdefs]
    exact h.declarations_eq_nil
  have hnew : ∀ s ∈ c'.pending, root.Calls s ∧ ∃ d, c'.definition? s = some d ∧ d.status = .undeclared := by
    intro s hs
    rcases hnotes.new s hs with hold | ⟨hcalls, d, hd, hstatus⟩
    · replace hold : s ∈ c.pending := hold
      rw [h.pending] at hold
      cases hold
    · exact ⟨hcalls, d, (definition?_congr hdefs).trans hd, hstatus⟩
  refine ⟨(hsound₀.keeps_of_advances hlowered.advances).1, fun i d hd => h.plain i d (hdefs ▸ hd), fun i d hd hstatus => ?_,
    fun s hs => (hnew s hs).2, hnotes.distinct ?_, fun s hs => ?_, fun s hs => ?_⟩
  · rw [h.undeclared i d (hdefs ▸ hd)] at hstatus
    cases hstatus
  · show (c.pending.map (·.id)).Nodup
    rw [h.pending]
    exact .nil
  · rcases hs with hs | hs
    · exact .main (hnew s hs).1
    · rw [hnone] at hs
      cases hs
  · rcases hs with hcalls | ⟨decl, hdecl, -⟩
    · refine ⟨hnotes.awaited s hcalls, ?_⟩
      obtain ⟨args, hwithin⟩ := hcalls
      obtain ⟨d, hd⟩ := (hchecked.within hwithin).2
      exact ⟨d, (definition?_congr hdefs).trans hd⟩
    · rw [hnone] at hdecl
      cases hdecl

/-! ### Assembling -/

/-- Laying out a fragment that control does not leave fails only at a jump that is too long. -/
theorem linearize_eq_error {g : BlockGraph} {known : SubroutineId → Prop} {f : Fragment} (h : f.Resolved g known)
    {e : CompileError} (herror : g.linearize f.entry = .error e) : e = .offsetTooLarge := by
  rcases except_bind_eq_error.1 herror with htrace | ⟨l, -, hresolve⟩
  · obtain ⟨id, hid, hblock⟩ := exists_of_mapM htrace
    have hinside := ((h.reaches_iff (.refl _ g) id).2 (mem_order_iff.1 hid)).1
    obtain ⟨b, hb⟩ := Option.isSome_iff_exists.1 (block?_isSome.2 hinside)
    rw [block, hb] at hblock
    cases hblock
  · obtain ⟨i, item, -, t, -, hoffset⟩ := Linear.resolveFrom_eq_error hresolve
    unfold Linear.offset at hoffset
    dsimp only at hoffset
    split at hoffset
    · cases hoffset
    · cases hoffset
      rfl

/-- Control does not leave any fragment of a compilation. -/
theorem compile_resolved {limit : Nat} (hc : c.Reachable) {compilation : Compilation}
    (hcompile : (compile limit root).run.run c = some (.ok compilation, c')) :
    ∀ f ∈ compilation.fragments, f.Resolved compilation.graph fun _ => True := by
  let P : Declaration → BlockGraph → Prop := fun decl g => decl.fragment.Resolved g fun _ => True
  obtain ⟨⟨lowered, hlower, hgrows⟩, hdecls⟩ :=
    built_of_compile (P := P) enduring_resolved hc.sound (built_of_reachable (P := P) enduring_resolved hc) hcompile
  intro f hf
  rcases List.mem_cons.1 hf with rfl | hf
  · obtain ⟨hencloses, hentry⟩ := (lower_encloses (everywhere_owns root) { c with current := none }).of_ok hlower
    have hmain : compilation.main.Resolved lowered.graph fun _ => True :=
      ⟨_, _, hentry, le_refl _, hencloses.imp fun _ _ _ _ => trivial⟩
    exact hmain.mono hgrows fun _ h => h
  · obtain ⟨decl, hdecl, rfl⟩ := List.mem_map.1 hf
    exact hdecls decl hdecl

theorem assemble_eq_error {compilation : Compilation}
    (h : ∀ f ∈ compilation.fragments, f.Resolved compilation.graph fun _ => True) {e : CompileError}
    (herror : compilation.assemble = .error e) : e = .offsetTooLarge := by
  rcases except_bind_eq_error.1 herror with hmain | ⟨main, -, herror⟩
  · exact linearize_eq_error (h _ (List.mem_cons_self ..)) hmain
  rcases except_bind_eq_error.1 herror with hsubs | ⟨subs, -, herror⟩
  · obtain ⟨decl, hdecl, hcode⟩ := exists_of_mapM hsubs
    have hfragment := h decl.fragment (List.mem_cons_of_mem _ (List.mem_map_of_mem hdecl))
    rcases except_bind_eq_error.1 hcode with hops | ⟨ops, -, hcode⟩
    · exact linearize_eq_error hfragment hops
    · cases hcode
  · cases herror

/-- There is one code object for the main program, and one for each declaration. -/
theorem code_of_assemble {compilation : Compilation} {program : Program} (h : compilation.assemble = .ok program) :
    ∃ main subs, compilation.graph.linearize compilation.main.entry = .ok main ∧
      program.code = ⟨"main", main.toArray⟩ :: subs ∧
      List.Forall₂ (fun decl object => Compilation.codeObject compilation.graph decl = .ok object)
        compilation.declarations subs := by
  obtain ⟨main, hmain, h⟩ := except_bind_eq_ok.1 h
  obtain ⟨subs, hsubs, h⟩ := except_bind_eq_ok.1 h
  cases h
  exact ⟨main, subs, hmain, rfl, forall₂_of_mapM hsubs⟩

/-- Take a compiler on which only variables were asked for and subroutines with plain bodies defined.  A compilation then
comes to an end.  If it succeeds, then the subroutines declared are in ascending order those that the main program needs;
the hosts have built the body of each of them once and no other; and in the assembled program each of them has a code
object of its own, which is the layout of its fragment. -/
theorem declares_what_is_needed (hc : c.Prepared) (root : Expr) :
    ∃ answer c', (∀ limit, c.definitions.length ≤ limit → (compile limit root).run.run c = some (answer, c')) ∧
      ∀ compilation, answer = .ok compilation →
        (compilation.declarations.map (·.subroutine.id.number.toNat)).Pairwise (· < ·) ∧
        (∀ s, s ∈ compilation.declarations.map (·.subroutine) ↔ Needs root compilation.declarations s) ∧
        (∃ main lowered happened, (lower root).run.run { c with current := none } = (.ok main, lowered) ∧
          Moment.Leads ⟨lowered, .settle, []⟩ happened ⟨c', .settle, []⟩ ∧ c'.pending = [] ∧
          (invocations happened).Perm (compilation.declarations.map (·.subroutine))) ∧
        (∀ e, compilation.assemble = .error e → e = .offsetTooLarge) ∧
        ∀ program, compilation.assemble = .ok program →
          (∃ main subs, program.code = main :: subs ∧ List.Forall₂
            (fun decl object => Compilation.codeObject compilation.graph decl = .ok object) compilation.declarations subs) ∧
          ∀ decl ∈ compilation.declarations, ∃ ops, compilation.graph.linearize decl.fragment.entry = .ok ops ∧
            program.subroutine? decl.subroutine.id = some ⟨decl.subroutine.name, ops.toArray⟩ := by
  have hreachable := hc.reachable
  rcases hlower : (lower root).run.run { c with current := none } with ⟨e | main, lowered⟩
  · refine ⟨.error e, lowered, fun limit _ => ?_, fun compilation h => by cases h⟩
    rw [Moment.run_compile, hlower]
  have hworking := hc.fresh.working hreachable.sound hlower
  obtain ⟨answer, c', happened, hrun, hleads, hdone⟩ := hworking.settles
  have hcompile : ∀ limit, c.definitions.length ≤ limit → (compile limit root).run.run c = some (answer.map fun _ =>
      { options := c'.options, graph := c'.graph, main, declarations := c'.declarations }, c') := by
    intro limit hlimit
    have hlength : lowered.definitions.length = c.definitions.length := by
      rw [(Moment.advances_lower hlower).rest]
    rw [Moment.run_compile, hlower]
    dsimp only
    rw [hrun limit limit (by omega) (by omega)]
    rfl
  refine ⟨_, c', hcompile, fun compilation hanswer => ?_⟩
  cases answer with
  | error e => cases hanswer
  | ok done =>
    cases hanswer
    obtain ⟨hworking', hpending, hperm⟩ := hdone done rfl
    have hrun := hcompile _ (le_refl _)
    have hcompiled := (compile_ensures hreachable.sound _ root).of_ok hrun
    have hresolved := compile_resolved hreachable hrun
    have hnone : lowered.declarations = [] := by
      rw [declarations, (Moment.advances_lower hlower).rest]
      exact hc.fresh.declarations_eq_nil
    refine ⟨?_, hworking'.needs_iff hpending, ⟨main, lowered, happened, rfl, hleads, hpending, ?_⟩,
      fun e herror => assemble_eq_error hresolved herror, fun program hassemble => ⟨?_, fun decl hdecl => ?_⟩⟩
    · rw [List.pairwise_map]
      exact hcompiled.ascending
    · rw [hnone, List.map_nil, List.append_nil] at hperm
      exact hperm.symm
    · obtain ⟨main, subs, -, hcode⟩ := code_of_assemble hassemble
      exact ⟨_, subs, hcode⟩
    · have hsub := hcompiled.subroutine?_eq hassemble decl.subroutine.id
      rw [hcompiled.declaration?_eq hdecl] at hsub
      exact hsub

/-! ### Two subroutines that call each other -/

namespace Mutual

def ping : Subroutine := ⟨0, ⟨0⟩, "ping", [], .uint64⟩

def pong : Subroutine := ⟨0, ⟨2⟩, "pong", [], .uint64⟩

def pingBody : Body Unit := fun _ _ => .done (.call pong [])

def pongBody : Body Unit := fun _ _ => .done (.add (.call ping []) (.call pong []))

def created : Compiler Unit := { key := 0, options := {}, slots := .empty 256, host := () }

/-- A subroutine that nothing calls is defined between the two. -/
def compiler : Compiler Unit :=
  (define (define (define created "ping" [] .uint64 pingBody).2 "idle" [] .none fun _ _ => .done .err).2 "pong" [] .uint64
    pongBody).2

def graph : BlockGraph := ⟨#[⟨[.callsub ⟨0⟩], .opened⟩, ⟨[.callsub ⟨2⟩], .next ⟨2⟩⟩, ⟨[.retsub], .terminal⟩,
  ⟨[.callsub ⟨0⟩], .next ⟨4⟩⟩, ⟨[.callsub ⟨2⟩], .next ⟨5⟩⟩, ⟨[.add], .next ⟨6⟩⟩, ⟨[.retsub], .terminal⟩]⟩

def pingDeclaration : Declaration := ⟨ping, .call pong [], ⟨⟨1⟩, none⟩, []⟩

def pongDeclaration : Declaration := ⟨pong, .add (.call ping []) (.call pong []), ⟨⟨3⟩, none⟩, []⟩

def compilation : Compilation where
  options := {}
  graph := graph
  main := ⟨⟨0⟩, some ⟨0⟩⟩
  declarations := [pingDeclaration, pongDeclaration]

theorem compile_ping : ((compile 3 (.call ping [])).run.run compiler).map (·.1) = some (.ok compilation) := by
  cbv

end Mutual

open Mutual in
/-- The main program calls one of the two, and both are declared. -/
theorem declares_what_is_needed_mutual : ∃ c', (compile 3 (.call ping [])).run.run compiler = some (.ok compilation, c') ∧
    ∀ s, Needs (.call ping []) compilation.declarations s ↔ s = ping ∨ s = pong := by
  have hprepared : compiler.Prepared := by
    refine .define _ _ _ (fun _ _ => trivial) (.define _ _ _ (fun _ _ => trivial) (.define _ _ _ (fun _ _ => trivial) ?_))
    have hcreate : create 0 {} () = .ok created := rfl
    exact .create hcreate
  obtain ⟨answer, c', hcompile, hok⟩ := declares_what_is_needed hprepared (.call ping [])
  have hrun := compile_ping
  rw [hcompile 3 (by decide)] at hrun
  obtain rfl := Option.some.inj hrun
  obtain ⟨-, hneeds, -⟩ := hok compilation rfl
  refine ⟨c', hcompile 3 (by decide), fun s => (hneeds s).symm.trans ?_⟩
  simp [compilation, pingDeclaration, pongDeclaration]

end Compiler

end ScratchMachine
