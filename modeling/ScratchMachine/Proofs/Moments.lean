import ScratchMachine.Proofs.Granted
import ScratchMachine.Proofs.Steady

/-!
# The work on a compiler, moment by moment

A declaration waits while a host builds its body, and the host may ask for further declarations then, so requests nest.
Here the work is followed one request at a time, with all that is under way between them.  It needs no bound on how deep
declarations nest.

* `Moment.step`: what is done next, and what of it concerns the hosts.
* `Moment.Move`: all that one step can do.
* `Moment.leads_run`, `Moment.leads_declarePending`: the steps come to where the builder or the worklist comes to.
* `Moment.holds_of_leads`: what is kept by all that hosts can do holds at every moment.
-/

namespace ScratchMachine

open Fallible Declaring

/-! ### Moments -/

/-- What is to be done next. -/
inductive Task (σ : Type) where
  /-- A host goes on. -/
  | host (rest : Builder σ)
  /-- A subroutine is to be declared, and then it goes on with the answer. -/
  | declare (sub : Subroutine) (next : Except CompileError Declaration → Task σ)
  /-- The subroutines that wait are to be declared. -/
  | settle

/-- A subroutine whose body is being built. -/
structure Ongoing (σ : Type) where
  sub : Subroutine
  /-- The variables that hold its parameters. -/
  holders : List Variable
  /-- How it goes on when the declaration is made or has failed. -/
  next : Except CompileError Declaration → Task σ

/-- A moment in the work on a compiler. -/
structure Moment (σ : Type) where
  compiler : Compiler σ
  task : Task σ
  /-- The subroutines whose bodies are being built, the innermost first. -/
  ongoing : List (Ongoing σ) := []

/-- What concerns the hosts. -/
inductive Event where
  /-- A host gets a variable that it has asked for. -/
  | given (v : Variable)
  /-- The host has to build a body; the variables hold the parameters. -/
  | invoked (sub : Subroutine) (holders : List Variable)

/-- A host that has come to its end. -/
def Builder.ended {σ : Type} : Except CompileError Expr → Builder σ
  | .ok body => .done body
  | .error e => .fail e

/-- What is left to do for a compilation after a declaration that it needs. -/
def Task.afterDeclaring {σ : Type} : Except CompileError Declaration → Task σ
  | .ok _ => .settle
  | .error e => .host (.fail e)

namespace Compiler

variable {σ : Type}

/-- Notes how a declaration has ended. -/
def record (c : Compiler σ) (s : Subroutine) : Except CompileError Declaration → Compiler σ
  | .ok decl => c.withStatus s (.declared decl)
  | .error _ => c.withStatus s .undeclared

/-- What is left of a declaration when the host has built the body, or failed to. -/
def conclude (c : Compiler σ) (s : Subroutine) (holders : List Variable) :
    Except CompileError Expr → Except CompileError Declaration × Compiler σ
  | .error e => (.error e, c)
  | .ok body =>
    match (do checkBody s body; prologue holders (withReturn s body)) with
    | .error e => (.error e, c)
    | .ok code =>
      let lowered := (lower code).run.run { c with current := some s }
      (lowered.1.map fun fragment => { subroutine := s, body, fragment, holders },
        { lowered.2 with current := c.current })

theorem run_perform {α : Type} (x : Compiling σ α) (c : Compiler σ) : (perform x).run.run c = some (x.run.run c) := rfl

theorem run_lift_bind {α β : Type} (x : Except CompileError α) (k : α → Declaring σ β) (c : Compiler σ) :
    ((liftM x : Declaring σ α) >>= k).run.run c = match x with
      | .ok a => (k a).run.run c
      | .error e => some (.error e, c) := by
  rw [Declaring.run_bind]
  cases x <;> rfl

theorem run_discard {α : Type} (x : Declaring σ α) (c : Compiler σ) :
    (discard x).run.run c = (x.run.run c).map fun ended => (ended.1.map fun _ => (), ended.2) := by
  show (x >>= fun _ => pure () : Declaring σ Unit).run.run c = _
  rw [Declaring.run_bind]
  rcases x.run.run c with _ | ⟨e | a, c'⟩ <;> rfl

theorem run_lowerWithin (s : Subroutine) (e : Expr) (c : Compiler σ) :
    (lowerWithin s e).run.run c =
      some (((lower e).run.run { c with current := some s }).1,
        { ((lower e).run.run { c with current := some s }).2 with current := c.current }) := by
  show (lowerWithin s e).run.run c = _
  rcases hlower : (lower e).run.run { c with current := some s } with ⟨answer, c'⟩
  show (_ >>= _ : Declaring σ Fragment).run.run c = _
  rw [Declaring.run_bind]
  show (_ >>= _ : Declaring σ Fragment).run.run c = _
  rw [Declaring.run_bind]
  show (_ >>= _ : Declaring σ Fragment).run.run { c with current := some s } = _
  rw [Declaring.run_bind, run_attempt, run_perform, hlower]
  cases answer <;> rfl

/-- Building a declaration is to bind the parameters, to let the host build the body, and what is left after that. -/
theorem run_build (declare : Subroutine → Declaring σ Declaration) (d : Definition σ) (c : Compiler σ) :
    (build declare d).run.run c =
      match (d.handle.params.mapM bindParam).run.run c with
      | (.error e, c₁) => some (.error e, c₁)
      | (.ok params, c₁) => (((d.body d.handle (params.map (·.2))).run declare).run.run c₁).map fun built =>
          built.2.conclude d.handle (params.map (·.1)) built.1 := by
  unfold build
  dsimp only
  rw [Declaring.run_bind, run_perform]
  rcases (d.handle.params.mapM bindParam).run.run c with ⟨e | params, c₁⟩
  · rfl
  dsimp only
  rw [Declaring.run_bind]
  rcases hbody : ((d.body d.handle (params.map (·.2))).run declare).run.run c₁ with _ | ⟨e | body, c₂⟩
  · simp only [hbody, Option.map_none]
  · simp only [hbody, Option.map_some, conclude]
  simp only [hbody, Option.map_some, conclude]
  rw [run_lift_bind]
  rcases checkBody d.handle body with e | _
  · rfl
  dsimp only
  rw [run_lift_bind]
  rcases hcode : prologue (params.map (·.1)) (withReturn d.handle body) with e | code
  · simp only [hcode]
    rfl
  simp only [hcode]
  rw [Declaring.run_bind, run_lowerWithin]
  show _ = some (((lower code).run.run { c₂ with current := some d.handle }).1.map _, _)
  cases ((lower code).run.run { c₂ with current := some d.handle }).1 <;> rfl

/-- Declaring a subroutine is to look up how far its declaration has come, and to build it if it was not begun. -/
theorem run_declareBy (build : Definition σ → Declaring σ Declaration) (s : Subroutine) (c : Compiler σ) :
    (declareBy build s).run.run c =
      match c.definition? s with
      | none => some (.error (.notDefinedHere s.name), c)
      | some d =>
        match d.status with
        | .declared decl => some (.ok decl, c)
        | .declaring => some (.error (.declarationInProgress s.name), c)
        | .undeclared =>
          ((build d).run.run (c.withStatus s .declaring)).map fun ended => (ended.1, ended.2.record s ended.1) := by
  unfold declareBy
  rw [Declaring.run_bind, run_perform, run_definition]
  rcases c.definition? s with _ | d
  · rfl
  dsimp only
  rcases hstatus : d.status with _ | _ | decl
  · dsimp only
    rw [Declaring.run_bind]
    show (_ >>= _ : Declaring σ Declaration).run.run (c.withStatus s .declaring) = _
    rw [Declaring.run_bind, run_attempt]
    rcases hbuild : (build d).run.run (c.withStatus s .declaring) with _ | ⟨e | decl, c'⟩
    · rfl
    · rfl
    · rfl
  · rfl
  · rfl

end Compiler

namespace Moment

variable {σ : Type}

open Compiler

/-! ### Steps -/

/-- A declaration is asked for: there is an answer at once, or the host has to build the body. -/
def request (c : Compiler σ) (s : Subroutine) (next : Except CompileError Declaration → Task σ)
    (ongoing : List (Ongoing σ)) : Moment σ × List Event :=
  match c.definition? s with
  | none => (⟨c, next (.error (.notDefinedHere s.name)), ongoing⟩, [])
  | some d =>
    match d.status with
    | .declared decl => (⟨c, next (.ok decl), ongoing⟩, [])
    | .declaring => (⟨c, next (.error (.declarationInProgress s.name)), ongoing⟩, [])
    | .undeclared =>
      match (s.params.mapM bindParam).run.run (c.withStatus s .declaring) with
      | (.error e, c') => (⟨c'.record s (.error e), next (.error e), ongoing⟩, [])
      | (.ok params, c') =>
        (⟨c', .host (d.body s (params.map (·.2))), ⟨s, params.map (·.1), next⟩ :: ongoing⟩,
          [.invoked s (params.map (·.1))])

/-- The host has come to its end with a body: the declaration ends, and what asked for it goes on. -/
def finish (c : Compiler σ) (built : Except CompileError Expr) (o : Ongoing σ) (ongoing : List (Ongoing σ)) : Moment σ :=
  let (answer, c') := c.conclude o.sub o.holders built
  ⟨c'.record o.sub answer, o.next answer, ongoing⟩

/-- The next moment, unless all is done, and what concerns the hosts in between. -/
def step (m : Moment σ) : Option (Moment σ × List Event) :=
  let ⟨c, task, ongoing⟩ := m
  match task with
  | .host (.done body) => ongoing.head?.map fun o => (finish c (.ok body) o ongoing.tail, [])
  | .host (.fail e) => ongoing.head?.map fun o => (finish c (.error e) o ongoing.tail, [])
  | .host (.newVariable type request target next) =>
    let (answer, c') := (Compiler.newVariable type request target).run.run c
    some (⟨c', .host (next answer), ongoing⟩, answer.toOption.toList.map .given)
  | .host (.define name params returns body next) =>
    let (handle, c') := c.define name params returns body
    some (⟨c', .host (next handle), ongoing⟩, [])
  | .host (.lookup name next) => some (⟨c, .host (next (c.lookup name)), ongoing⟩, [])
  | .host (.declare s next) => some (⟨c, .declare s fun answer => .host (next answer), ongoing⟩, [])
  | .host (.lower e next) =>
    let (answer, c') := (Compiler.lower e).run.run c
    some (⟨c', .host (next answer), ongoing⟩, [])
  | .host (.inspect next) => some (⟨c, .host (next c.options c.graph), ongoing⟩, [])
  | .host (.getState next) => some (⟨c, .host (next c.host), ongoing⟩, [])
  | .host (.setState state next) => some (⟨{ c with host := state }, .host next, ongoing⟩, [])
  | .declare s next => some (request c s next ongoing)
  | .settle =>
    match c.pending with
    | [] => none
    | s :: rest => some (⟨{ c with pending := rest }, .declare s .afterDeclaring, ongoing⟩, [])

/-- One moment comes after another, with what concerns the hosts in between. -/
inductive Leads : Moment σ → List Event → Moment σ → Prop
  | here (m : Moment σ) : Leads m [] m
  | step {m m' m'' : Moment σ} {happened later : List Event} : m.step = some (m', happened) → Leads m' later m'' →
      Leads m (happened ++ later) m''

variable {m m' m'' : Moment σ} {happened later : List Event}

theorem Leads.trans (h : m.Leads happened m') (h' : m'.Leads later m'') : m.Leads (happened ++ later) m'' := by
  induction h with
  | here m => exact h'
  | step hstep _ ih =>
    rw [List.append_assoc]
    exact .step hstep (ih h')

theorem Leads.single (h : m.step = some (m', happened)) : m.Leads happened m' := by
  have hleads := Leads.step h (.here m')
  rwa [List.append_nil] at hleads

/-- From one moment the steps come to one end only. -/
theorem Leads.unique (h : m.Leads happened m') (hend : m'.step = none) (h' : m.Leads later m'')
    (hend' : m''.step = none) :
    m' = m'' ∧ happened = later := by
  induction h generalizing later with
  | here m =>
    cases h' with
    | here => exact ⟨rfl, rfl⟩
    | step hstep _ =>
      rw [hend] at hstep
      cases hstep
  | step hstep _ ih =>
    cases h' with
    | here =>
      rw [hend'] at hstep
      cases hstep
    | step hstep' h' =>
      rw [hstep] at hstep'
      cases hstep'
      obtain ⟨rfl, rfl⟩ := ih hend h'
      exact ⟨rfl, rfl⟩

/-! ### What one step can do -/

/-- What a host changes by a request that needs no declaration. -/
inductive Quiet (c : Compiler σ) : Compiler σ → Prop
  | allots {c' : Compiler σ} : c.Allots c' → Quiet c c'
  | define (name : String) (params : List Param) (returns : ValueType) (body : Body σ) :
      Quiet c (c.define name params returns body).2
  | lowers {c' : Compiler σ} {e : Expr} {answer : Except CompileError Fragment} :
      (lower e).run.run c = (answer, c') → Advances c.graph.size c c' → Quiet c c'
  | host (state : σ) : Quiet c { c with host := state }

/-- All that one step can do. -/
inductive Move : Moment σ → List Event → Moment σ → Prop
  /-- A host gets a variable. -/
  | gives {c c' : Compiler σ} {type : ValueType} {request : SlotRequest} {target : Option Variable}
      {next : Except CompileError Variable → Builder σ} {v : Variable} {ongoing : List (Ongoing σ)} :
      (newVariable type request target).run.run c = (.ok v, c') →
      Move ⟨c, .host (.newVariable type request target next), ongoing⟩ [.given v] ⟨c', .host (next (.ok v)), ongoing⟩
  /-- A host goes on after another request. -/
  | answers {c c' : Compiler σ} {b b' : Builder σ} {ongoing : List (Ongoing σ)} : Quiet c c' →
      Move ⟨c, .host b, ongoing⟩ [] ⟨c', .host b', ongoing⟩
  /-- A declaration is to be made, of a subroutine that a host asks for or of one that waits. -/
  | turns {c : Compiler σ} {task : Task σ} {s : Subroutine} {next : Except CompileError Declaration → Task σ}
      {ongoing : List (Ongoing σ)} (pending : List Subroutine) :
      Move ⟨c, task, ongoing⟩ [] ⟨{ c with pending }, .declare s next, ongoing⟩
  /-- The subroutine is not one of this compiler, or its declaration has been begun before. -/
  | replies {c : Compiler σ} {s : Subroutine} {next : Except CompileError Declaration → Task σ} {ongoing : List (Ongoing σ)}
      (answer : Except CompileError Declaration) : (∀ d, c.definition? s = some d → d.status ≠ .undeclared) →
      Move ⟨c, .declare s next, ongoing⟩ [] ⟨c, next answer, ongoing⟩
  /-- There are no slots for the parameters. -/
  | refuses {c c' : Compiler σ} {s : Subroutine} {d : Definition σ} {next : Except CompileError Declaration → Task σ}
      {ongoing : List (Ongoing σ)} {e : CompileError} : c.definition? s = some d → d.status = .undeclared →
      (s.params.mapM bindParam).run.run (c.withStatus s .declaring) = (.error e, c') →
      Move ⟨c, .declare s next, ongoing⟩ [] ⟨c'.record s (.error e), next (.error e), ongoing⟩
  /-- The host has to build the body. -/
  | begins {c c' : Compiler σ} {s : Subroutine} {d : Definition σ} {next : Except CompileError Declaration → Task σ}
      {ongoing : List (Ongoing σ)} {params : List (Variable × Arg)} : c.definition? s = some d → d.status = .undeclared →
      (s.params.mapM bindParam).run.run (c.withStatus s .declaring) = (.ok params, c') →
      Move ⟨c, .declare s next, ongoing⟩ [.invoked s (params.map (·.1))]
        ⟨c', .host (d.body s (params.map (·.2))), ⟨s, params.map (·.1), next⟩ :: ongoing⟩
  /-- The host has built the body, or failed to. -/
  | ends {c c' : Compiler σ} {built : Except CompileError Expr} {o : Ongoing σ} {ongoing : List (Ongoing σ)}
      {answer : Except CompileError Declaration} : c.conclude o.sub o.holders built = (answer, c') →
      Move ⟨c, .host (.ended built), o :: ongoing⟩ [] ⟨c'.record o.sub answer, o.next answer, ongoing⟩

theorem advances_lower {e : Expr} {c c' : Compiler σ} {answer : Except CompileError Fragment}
    (h : (lower e).run.run c = (answer, c')) : Advances c.graph.size c c' := by
  have hensures := lower_ensures e c
  rw [Fallible.Ensures, h] at hensures
  cases answer with
  | ok f => exact hensures.advances
  | error e => exact hensures

theorem advances_conclude {s : Subroutine} {holders : List Variable} {built : Except CompileError Expr}
    {c c' : Compiler σ} {answer : Except CompileError Declaration} (h : c.conclude s holders built = (answer, c')) :
    Advances c.graph.size c c' := by
  unfold conclude at h
  split at h
  · cases h
    exact .refl _ _
  · split at h
    · cases h
      exact .refl _ _
    · rename_i code _
      rcases hlower : (lower code).run.run { c with current := some s } with ⟨lowered, c₁⟩
      simp only [hlower] at h
      cases h
      have hadvances := advances_lower hlower
      refine ⟨?_, hadvances.grows, hadvances.awaiting⟩
      rw [hadvances.rest]

/-- A declaration that has been made is of the body that the host built, lowered behind the prologue. -/
theorem conclude_eq_ok {s : Subroutine} {holders : List Variable} {built : Except CompileError Expr} {c c' : Compiler σ}
    {decl : Declaration} (h : c.conclude s holders built = (.ok decl, c')) :
    built = .ok decl.body ∧ decl.subroutine = s ∧ decl.holders = holders ∧ ∃ code c₁,
      prologue holders (withReturn s decl.body) = .ok code ∧
      (lower code).run.run { c with current := some s } = (.ok decl.fragment, c₁) ∧
      c' = { c₁ with current := c.current } := by
  unfold conclude at h
  split at h
  · cases h
  rename_i body
  split at h
  · cases h
  rename_i code hcode
  obtain ⟨-, -, hcode⟩ := except_bind_eq_ok.1 hcode
  rcases hlower : (lower code).run.run { c with current := some s } with ⟨e | f, c₁⟩
  · simp only [hlower] at h
    cases h
  · simp only [hlower] at h
    cases h
    exact ⟨rfl, rfl, rfl, code, c₁, hcode, hlower, rfl⟩

theorem move_of_request (c : Compiler σ) (s : Subroutine) (next : Except CompileError Declaration → Task σ)
    (ongoing : List (Ongoing σ)) :
    Move ⟨c, .declare s next, ongoing⟩ (request c s next ongoing).2 (request c s next ongoing).1 := by
  unfold request
  split
  · rename_i hnone
    exact .replies _ (by simp [hnone])
  rename_i d hd
  split
  · rename_i decl hstatus
    exact .replies _ fun d' hd' => by simp [Option.some.inj (hd.symm.trans hd') ▸ hstatus]
  · rename_i hstatus
    exact .replies _ fun d' hd' => by simp [Option.some.inj (hd.symm.trans hd') ▸ hstatus]
  · rename_i hstatus
    split
    · rename_i e c' hparams
      exact .refuses hd hstatus hparams
    · rename_i params c' hparams
      exact .begins hd hstatus hparams

theorem move_of_step (h : m.step = some (m', happened)) : Move m happened m' := by
  obtain ⟨c, task, ongoing⟩ := m
  cases task with
  | declare s next =>
    obtain h := Option.some.inj h
    have hmove := move_of_request c s next ongoing
    rwa [h] at hmove
  | settle =>
    simp only [step] at h
    split at h
    · cases h
    · cases h
      exact .turns _
  | host b =>
    cases b with
    | done body =>
      obtain ⟨o, ho, heq⟩ := Option.map_eq_some_iff.1 h
      obtain ⟨rest, rfl⟩ := List.head?_eq_some_iff.1 ho
      cases heq
      exact @Move.ends _ _ _ (.ok body) _ _ _ rfl
    | fail e =>
      obtain ⟨o, ho, heq⟩ := Option.map_eq_some_iff.1 h
      obtain ⟨rest, rfl⟩ := List.head?_eq_some_iff.1 ho
      cases heq
      exact @Move.ends _ _ _ (.error e) _ _ _ rfl
    | newVariable type request target next =>
      rcases hnew : (Compiler.newVariable type request target).run.run c with ⟨e | v, c'⟩
      · simp only [step, hnew] at h
        cases h
        exact .answers (.allots (allots_newVariable hnew))
      · simp only [step, hnew] at h
        cases h
        exact .gives hnew
    | define name params returns body next =>
      cases h
      exact .answers (.define name params returns body)
    | lookup name next =>
      cases h
      exact .answers (.allots (.refl c))
    | declare s next =>
      cases h
      exact .turns c.pending
    | lower e next =>
      cases h
      exact .answers (.lowers rfl (advances_lower rfl))
    | inspect next =>
      cases h
      exact .answers (.allots (.refl c))
    | getState next =>
      cases h
      exact .answers (.allots (.refl c))
    | setState state next =>
      cases h
      exact .answers (.host state)

/-! ### The steps and the actions -/

/-- From where a subroutine is to be declared, the steps come to where the action comes to. -/
def Traces (declare : Subroutine → Declaring σ Declaration) : Prop :=
  ∀ {s : Subroutine} {c c' : Compiler σ} {answer : Except CompileError Declaration},
    (declare s).run.run c = some (answer, c') → ∀ (next : Except CompileError Declaration → Task σ)
      (ongoing : List (Ongoing σ)), ∃ happened, Leads ⟨c, .declare s next, ongoing⟩ happened ⟨c', next answer, ongoing⟩

theorem leads_run_of_traces {declare : Subroutine → Declaring σ Declaration} (hdeclare : Traces declare) {b : Builder σ}
    {c c' : Compiler σ} {answer : Except CompileError Expr} (h : (b.run declare).run.run c = some (answer, c'))
    (ongoing : List (Ongoing σ)) :
    ∃ happened, Leads ⟨c, .host b, ongoing⟩ happened ⟨c', .host (.ended answer), ongoing⟩ := by
  have hfirst : ∀ {m m' : Moment σ} {happened : List Event}, m.step = some (m', happened) →
      (∃ later, Leads m' later ⟨c', .host (.ended answer), ongoing⟩) →
      ∃ events, Leads m events ⟨c', .host (.ended answer), ongoing⟩ := by
    rintro m m' happened hstep ⟨later, hlater⟩
    exact ⟨_, .step hstep hlater⟩
  induction b generalizing c with
  | done body =>
    cases h
    exact ⟨_, .here _⟩
  | fail e =>
    cases h
    exact ⟨_, .here _⟩
  | newVariable type request target next ih =>
    rw [Builder.run, Declaring.run_bind, run_attempt, run_perform] at h
    exact hfirst rfl (ih _ h)
  | define name params returns body next _ ih => exact hfirst rfl (ih _ h)
  | lookup name next ih => exact hfirst rfl (ih _ h)
  | declare s next ih =>
    rw [Builder.run, Declaring.run_bind, run_attempt] at h
    rcases hs : (declare s).run.run c with _ | ⟨first, c₁⟩
    · rw [hs] at h
      cases h
    rw [hs, Option.map_some] at h
    obtain ⟨happened, hdeclared⟩ := hdeclare hs (fun answer => .host (next answer)) ongoing
    obtain ⟨later, hlater⟩ := ih _ h
    exact hfirst rfl ⟨_, hdeclared.trans hlater⟩
  | lower e next ih =>
    rw [Builder.run, Declaring.run_bind, run_attempt, run_perform] at h
    exact hfirst rfl (ih _ h)
  | inspect next ih => exact hfirst rfl (ih _ _ h)
  | getState next ih => exact hfirst rfl (ih _ h)
  | setState state next ih => exact hfirst rfl (ih h)

theorem step_ended (c : Compiler σ) (built : Except CompileError Expr) (o : Ongoing σ) (ongoing : List (Ongoing σ)) :
    step ⟨c, .host (.ended built), o :: ongoing⟩ = some (finish c built o ongoing, []) := by
  cases built <;> rfl

theorem traces_declareBy {build : Definition σ → Declaring σ Declaration}
    (hbuild : ∀ {s : Subroutine} {d : Definition σ} {c c' : Compiler σ} {answer : Except CompileError Declaration},
      c.definition? s = some d → d.status = .undeclared →
      (build d).run.run (c.withStatus s .declaring) = some (answer, c') →
      ∀ (next : Except CompileError Declaration → Task σ) (ongoing : List (Ongoing σ)),
        ∃ happened, Leads ⟨c, .declare s next, ongoing⟩ happened ⟨c'.record s answer, next answer, ongoing⟩) :
    Traces (declareBy build) := by
  intro s c c' answer h next ongoing
  have hstep : step ⟨c, .declare s next, ongoing⟩ = some (request c s next ongoing) := rfl
  rw [run_declareBy] at h
  unfold request at hstep
  rcases hd : c.definition? s with _ | d
  · simp only [hd] at h hstep
    cases h
    exact ⟨_, .single hstep⟩
  rcases hstatus : d.status with _ | _ | decl
  · simp only [hd, hstatus] at h
    obtain ⟨⟨answer', c₁⟩, hrun, heq⟩ := Option.map_eq_some_iff.1 h
    cases heq
    exact hbuild hd hstatus hrun next ongoing
  · simp only [hd, hstatus] at h hstep
    cases h
    exact ⟨_, .single hstep⟩
  · simp only [hd, hstatus] at h hstep
    cases h
    exact ⟨_, .single hstep⟩

/-- Where declaring has an answer, to whatever depth, the steps come to it. -/
theorem traces_declare (depth : Nat) : Traces (Compiler.declare (σ := σ) depth) := by
  induction depth with
  | zero =>
    refine traces_declareBy fun _ _ h => ?_
    cases h
  | succ depth ih =>
    refine traces_declareBy fun {s d c c' answer} hd hstatus h next ongoing => ?_
    obtain ⟨-, hhandle⟩ := definition?_eq_some hd
    have hstep : step ⟨c, .declare s next, ongoing⟩ = some (request c s next ongoing) := rfl
    rw [run_build, hhandle] at h
    simp only [request, hd, hstatus] at hstep
    rcases hparams : (s.params.mapM bindParam).run.run (c.withStatus s .declaring) with ⟨e | params, c₁⟩
    · simp only [hparams] at h hstep
      cases h
      exact ⟨_, .single hstep⟩
    · simp only [hparams] at h hstep
      obtain ⟨⟨built, c₂⟩, hrun, heq⟩ := Option.map_eq_some_iff.1 h
      -- the builder runs on top of what is under way already
      obtain ⟨happened, hbody⟩ := leads_run_of_traces ih hrun (⟨s, params.map (·.1), next⟩ :: ongoing)
      have hend := step_ended c₂ built ⟨s, params.map (·.1), next⟩ ongoing
      rw [finish, heq] at hend
      exact ⟨_, .step hstep (hbody.trans (.single hend))⟩

/-- Where the run of a builder has an answer, the steps come to it. -/
theorem leads_run {depth : Nat} {b : Builder σ} {c c' : Compiler σ} {answer : Except CompileError Expr}
    (h : (b.run (Compiler.declare depth)).run.run c = some (answer, c')) (ongoing : List (Ongoing σ)) :
    ∃ happened, Leads ⟨c, .host b, ongoing⟩ happened ⟨c', .host (.ended answer), ongoing⟩ :=
  leads_run_of_traces (traces_declare depth) h ongoing

/-- Where a compilation is when the subroutines that waited have been declared, or one of them could not be. -/
def settled (c : Compiler σ) : Except CompileError Unit → Moment σ
  | .ok _ => ⟨c, .settle, []⟩
  | .error e => ⟨c, .host (.fail e), []⟩

/-- Compiling is to lower the main program and to declare the subroutines that wait then. -/
theorem run_compile (limit : Nat) (root : Expr) (c : Compiler σ) :
    (compile limit root).run.run c =
      match (lower root).run.run { c with current := none } with
      | (.error e, c₁) => some (.error e, c₁)
      | (.ok main, c₁) => ((declarePending limit limit).run.run c₁).map fun ended =>
          (ended.1.map fun _ =>
            { options := ended.2.options, graph := ended.2.graph, main, declarations := ended.2.declarations }, ended.2) := by
  show (perform (lower root) >>= _ : Declaring σ Compilation).run.run { c with current := none } = _
  rw [Declaring.run_bind, run_perform]
  rcases (lower root).run.run { c with current := none } with ⟨e | main, c₁⟩
  · rfl
  dsimp only
  rw [Declaring.run_bind]
  rcases (declarePending limit limit).run.run c₁ with _ | ⟨e | _, c₂⟩ <;> rfl

theorem compile_eq_ok {limit : Nat} {root : Expr} {c c' : Compiler σ} {compilation : Compilation}
    (h : (compile limit root).run.run c = some (.ok compilation, c')) :
    ∃ main lowered, (lower root).run.run { c with current := none } = (.ok main, lowered) ∧
      (declarePending limit limit).run.run lowered = some (.ok (), c') ∧ compilation =
        { options := c'.options, graph := c'.graph, main, declarations := c'.declarations } := by
  rw [run_compile] at h
  rcases hlower : (lower root).run.run { c with current := none } with ⟨e | main, lowered⟩
  · simp only [hlower] at h
    cases h
  simp only [hlower] at h
  obtain ⟨⟨answer, c₁⟩, hpending, heq⟩ := Option.map_eq_some_iff.1 h
  cases answer with
  | error e => cases heq
  | ok done =>
    cases heq
    exact ⟨main, lowered, rfl, hpending, rfl⟩

/-- A main program has been lowered, and while the subroutines that wait are declared, this happens. -/
def Settles (root : Expr) (c : Compiler σ) (happened : List Event) (c' : Compiler σ) : Prop :=
  ∃ main lowered, (lower root).run.run { c with current := none } = (.ok main, lowered) ∧
    Leads ⟨lowered, .settle, []⟩ happened ⟨c', .settle, []⟩

section Enduring

variable {K : Compiler σ → Compiler σ → Prop} {start c c' : Compiler σ} {ongoing : List (Ongoing σ)}

/-- Every state has come of the one before: from the start to where the outermost declaration was begun, from there on
with its parameters bound to where the next one was begun, and so on to the state at hand. -/
inductive Holds (K : Compiler σ → Compiler σ → Prop) (start : Compiler σ) : List (Ongoing σ) → Compiler σ → Prop
  | idle {c : Compiler σ} : K start c → Holds K start [] c
  | building {begun c₁ c : Compiler σ} {d : Definition σ} {params : List (Variable × Arg)} {o : Ongoing σ}
      {ongoing : List (Ongoing σ)} : Holds K start ongoing begun → begun.Defines o.sub → d.handle = o.sub →
      (d.handle.params.mapM bindParam).run.run begun = (.ok params, c₁) → o.holders = params.map (·.1) → K c₁ c →
      Holds K start (o :: ongoing) c

theorem keeps_of_takes (hK : Course K) (hc : K c c) (h : c.Takes c') : K c c' := by
  rw [h.rest]
  exact hK.slots hc h.slots

theorem keeps_of_conclude (hK : Course K) {s : Subroutine} {holders : List Variable} {built : Except CompileError Expr}
    {answer : Except CompileError Declaration} (hc : K c c) (h : c.conclude s holders built = (answer, c')) : K c c' := by
  unfold conclude at h
  split at h
  · cases h
    exact hc
  · split at h
    · cases h
      exact hc
    · rename_i code _
      rcases hlower : (lower code).run.run { c with current := some s } with ⟨lowered, c₁⟩
      simp only [hlower] at h
      cases h
      have hbegun := hK.current (some s) hc
      have hlowered := hK.trans hbegun (hK.lower (hK.stays hbegun) hlower (advances_lower hlower))
      exact hK.trans hlowered (hK.current _ (hK.stays hlowered))

variable (hK : Enduring K)

include hK

theorem Holds.comes (h : Holds K start ongoing c) : K start c := by
  induction h with
  | idle h => exact h
  | building _ _ _ hparams _ hstep ih =>
    exact hK.trans (hK.trans ih (keeps_of_takes hK.toCourse (hK.stays ih) (allots_bindParams hparams).takes)) hstep

theorem Holds.state (h : Holds K start ongoing c) : K c c := hK.stays (h.comes hK)

theorem Holds.mono (h : Holds K start ongoing c) (hstep : K c c') : Holds K start ongoing c' := by
  cases h with
  | idle h => exact .idle (hK.trans h hstep)
  | building hbegun hdefines hhandle hparams hholders h =>
    exact .building hbegun hdefines hhandle hparams hholders (hK.trans h hstep)

/-- A declaration that has been made came about as it should. -/
theorem Holds.builtFrom {o : Ongoing σ} {built : Except CompileError Expr} {decl : Declaration}
    (h : Holds K start (o :: ongoing) c) (hend : c.conclude o.sub o.holders built = (.ok decl, c')) :
    ∃ begun d, Holds K start ongoing begun ∧ d.handle = o.sub ∧ begun.Defines o.sub ∧ K begun c' ∧
      BuiltFrom K d begun decl c' := by
  have hself := h.state hK
  cases h with
  | @building begun c₁ _ d params _ _ hbegun hdefines hhandle hparams hholders hstep =>
    have hbound := keeps_of_takes hK.toCourse (hbegun.state hK) (allots_bindParams hparams).takes
    have hgrown : K begun c' := hK.trans (hK.trans hbound hstep) (keeps_of_conclude hK.toCourse hself hend)
    obtain ⟨-, hsub, hdecl, code, c₂, hcode, hlower, rfl⟩ := conclude_eq_ok hend
    refine ⟨begun, d, hbegun, hhandle, hdefines, hgrown, params, c₁, c, c₂, code, hparams, hstep, hsub.trans hhandle.symm,
      hdecl.trans hholders, ?_, ?_, rfl⟩
    · rw [hsub, hdecl]
      exact hcode
    · rw [hhandle]
      exact hlower

theorem holds_of_move (hmove : Move m happened m') (h : Holds K start m.ongoing m.compiler) :
    Holds K start m'.ongoing m'.compiler := by
  have hself := h.state hK
  cases hmove with
  | gives hnew => exact h.mono hK (keeps_of_takes hK.toCourse hself (allots_newVariable hnew).takes)
  | answers hquiet =>
    refine h.mono hK ?_
    cases hquiet with
    | allots hallots => exact keeps_of_takes hK.toCourse hself hallots.takes
    | define name params returns body => exact hK.define name params returns body hself
    | lowers hlower hadvances => exact hK.lower hself hlower hadvances
    | host state => exact hK.host state hself
  | turns pending => exact h.mono hK (hK.pending pending hself)
  | replies answer _ => exact h
  | @refuses c c' s d next ongoing e _ _ hparams =>
    have hbegun : K c (c.withStatus s .declaring) := hK.undeclared hself (by simp)
    have hbound := hK.trans hbegun (keeps_of_takes hK.toCourse (hK.stays hbegun) (allots_bindParams hparams).takes)
    exact h.mono hK (hK.trans hbound (hK.undeclared (hK.stays hbound) (by simp)))
  | @begins c c' s d next ongoing params hd _ hparams =>
    have hbegun : K c (c.withStatus s .declaring) := hK.undeclared hself (by simp)
    have hbound := keeps_of_takes hK.toCourse (hK.stays hbegun) (allots_bindParams hparams).takes
    obtain ⟨-, hhandle⟩ := definition?_eq_some hd
    subst hhandle
    exact .building (h.mono hK hbegun) ((evolves_withStatus c _ _).defines _ ⟨d, hd⟩) rfl hparams rfl (hK.stays hbound)
  | @ends c c' built o ongoing answer hend =>
    have hstep := keeps_of_conclude hK.toCourse hself hend
    cases answer with
    | ok decl =>
      obtain ⟨begun, d, hbegun, hhandle, hdefines, hgrown, hbuilt⟩ := h.builtFrom hK hend
      exact hbegun.mono hK (hK.declared (hbegun.state hK) hgrown hbuilt hhandle ((hK.evolves hgrown).defines _ hdefines))
    | error e =>
      have hended : K c (c'.record o.sub (.error e)) :=
        hK.trans hstep (hK.undeclared (hK.stays hstep) (by simp))
      cases h with
      | building hbegun hdefines hhandle hparams hholders h =>
        have hbound := keeps_of_takes hK.toCourse (hbegun.state hK) (allots_bindParams hparams).takes
        exact hbegun.mono hK (hK.trans (hK.trans hbound h) hended)

/-- What all requests keep, and all beginnings and ends of declarations, holds at every moment. -/
theorem holds_of_leads (hleads : m.Leads happened m') (h : Holds K start m.ongoing m.compiler) :
    Holds K start m'.ongoing m'.compiler := by
  induction hleads with
  | here m => exact h
  | step hstep _ ih => exact ih (holds_of_move hK (move_of_step hstep) h)

end Enduring

end Moment

end ScratchMachine
