import ScratchMachine.Proofs.Resemblance

/-!
# Declarations that are tried again

A declaration that fails leaves slots and blocks behind, but nothing else that matters to a host that does not look at
numbers.  If such a host tries again, it comes to where it would have come without the attempts before, unless a slot is
lacking.

* `Moment.Supplied`: from a moment on no slot is lacking.
* `Compiler.Akin.run`, `.declare`, `.compile`: compilers that are akin come to the same.
* `Compiler.Retried`: two hosts did the same, but one of them has made attempts that failed.
* `Compiler.retried_declaration`: what the attempts change.
-/

namespace ScratchMachine

open Fallible Declaring

/-! ### Slots that are lacking -/

namespace Moment

variable {σ : Type} {m m' : Moment σ} {happened : List Event}

/-- Whether a slot is asked for at this moment, for a variable or for a parameter, and is lacking. -/
def lacks (m : Moment σ) : Bool :=
  match m.task with
  | .host (.newVariable type request target _) =>
    lacksSlot ((Compiler.newVariable type request target).run.run m.compiler).1
  | .declare s _ =>
    match m.compiler.definition? s with
    | some d => d.status.isUndeclared &&
      lacksSlot ((s.params.mapM Compiler.bindParam).run.run (m.compiler.withStatus s .declaring)).1
    | none => false
  | _ => false

/-- From this moment on no slot is lacking. -/
def Supplied (m : Moment σ) : Prop := ∀ happened m', Leads m happened m' → m'.lacks = false

namespace Supplied

theorem here (h : m.Supplied) : m.lacks = false := h [] m (.here m)

theorem leads (h : m.Supplied) (hleads : Leads m happened m') : m'.Supplied :=
  fun _ _ hlater => h _ _ (hleads.trans hlater)

theorem step (h : m.Supplied) (hstep : m.step = some (m', happened)) : m'.Supplied := h.leads (.single hstep)

/-- No slot is lacking if none is lacking now and none is from the next moment on. -/
theorem of_step (hlacks : m.lacks = false) (hstep : m.step = some (m', happened)) (h : m'.Supplied) : m.Supplied := by
  intro later m'' hleads
  cases hleads with
  | here => exact hlacks
  | step hstep' hleads =>
    rw [hstep] at hstep'
    cases hstep'
    exact h _ _ hleads

theorem of_end (hlacks : m.lacks = false) (hstep : m.step = none) : m.Supplied := by
  intro later m' hleads
  cases hleads with
  | here => exact hlacks
  | step hstep' _ =>
    rw [hstep] at hstep'
    cases hstep'

end Supplied

/-- Whether all is done after fewer than so many steps and no slot is lacking until then. -/
def suppliedFor : Nat → Moment σ → Bool
  | 0, _ => false
  | n + 1, m => !m.lacks && match m.step with
    | none => true
    | some (m', _) => suppliedFor n m'

theorem supplied_of_suppliedFor {n : Nat} (h : suppliedFor n m = true) : m.Supplied := by
  induction n generalizing m with
  | zero => cases h
  | succ n ih =>
    rw [suppliedFor, Bool.and_eq_true, Bool.not_eq_true'] at h
    obtain ⟨hlacks, hlater⟩ := h
    rcases hstep : m.step with _ | ⟨m', happened⟩ <;> rw [hstep] at hlater
    · exact .of_end hlacks hstep
    · exact .of_step hlacks hstep (ih hlater)

end Moment

namespace Compiler

variable {σ : Type} {waiting : Prop} {c c' : Compiler σ}

/-! ### Hosts -/

/-- The two runs of a host come to the same end, or neither does. -/
abbrev SameRun {α α' : Type} (waiting : Prop) (A : α → α' → Prop) (r : Option (Except CompileError α × Compiler σ))
    (r' : Option (Except CompileError α' × Compiler σ)) : Prop :=
  Option.Rel (SameEnd (Akin waiting) CompileError.Akin A) r r'

/-- What is the same of both ends is the same of both runs. -/
theorem SameRun.map_eq {α α' β : Type} {A : α → α' → Prop} {r : Option (Except CompileError α × Compiler σ)}
    {r' : Option (Except CompileError α' × Compiler σ)} (h : SameRun waiting A r r')
    {k : Except CompileError α × Compiler σ → β} {k' : Except CompileError α' × Compiler σ → β}
    (hk : ∀ e e', SameEnd (Akin waiting) CompileError.Akin A e e' → k' e' = k e) : r'.map k' = r.map k := by
  cases h with
  | none => rfl
  | some hsame => exact congrArg some (hk _ _ hsame)

/-- Compilers that are akin declare alike, as long as no slot is lacking. -/
def DeclaresAlike (waiting : Prop) (declare : Subroutine → Declaring σ Declaration) : Prop :=
  ∀ s c c' next next' ongoing ongoing', Akin waiting c c' →
    Moment.Supplied ⟨c, .declare s next, ongoing⟩ → Moment.Supplied ⟨c', .declare s next', ongoing'⟩ →
    SameRun waiting Declaration.Akin ((declare s).run.run c) ((declare s).run.run c')

/-- Hosts that are akin come to the same end. -/
theorem Akin.run {declare : Subroutine → Declaring σ Declaration} (hdeclare : DeclaresAlike waiting declare)
    (htraces : Moment.Traces declare) {b b' : Builder σ} (hb : b.Akin b') (h : Akin waiting c c')
    {ongoing ongoing' : List (Ongoing σ)} (hs : Moment.Supplied ⟨c, .host b, ongoing⟩)
    (hs' : Moment.Supplied ⟨c', .host b', ongoing'⟩) :
    SameRun waiting Expr.Akin ((b.run declare).run.run c) ((b'.run declare).run.run c') := by
  induction hb generalizing c c' with
  | done hbody => exact .some ⟨.ok hbody, h⟩
  | fail he => exact .some ⟨.error he, h⟩
  | @newVariable type request request' target target' next next' hrequest htarget _ ih =>
    obtain ⟨hanswer, hstate⟩ := concurs_newVariable type hrequest htarget c c' h hs.here hs'.here
    rw [Builder.run, Builder.run, Declaring.run_bind, Declaring.run_bind, run_attempt, run_attempt, run_perform,
      run_perform]
    exact ih _ _ hanswer hstate (hs.step rfl) (hs'.step rfl)
  | @define name params returns body body' next next' hbody _ _ ih =>
    obtain ⟨hhandle, hdefined⟩ := h.define name params returns hbody
    have hnext : Moment.Supplied ⟨(c'.define name params returns body').2,
        .host (next' (c'.define name params returns body').1), ongoing'⟩ := hs'.step rfl
    rw [hhandle] at hnext
    have hrest := ih (c.define name params returns body).1 hdefined (hs.step rfl) hnext
    show SameRun waiting Expr.Akin _ (((next' (c'.define name params returns body').1).run declare).run.run _)
    rw [hhandle]
    exact hrest
  | @lookup name next next' _ ih =>
    have hlookup := h.lookup name
    have hnext : Moment.Supplied ⟨c', .host (next' (c'.lookup name)), ongoing'⟩ := hs'.step rfl
    rw [hlookup] at hnext
    show SameRun waiting Expr.Akin _ (((next' (c'.lookup name)).run declare).run.run c')
    rw [hlookup]
    exact ih _ h (hs.step rfl) hnext
  | @declare s next next' _ ih =>
    have hboth := hdeclare s c c' _ _ ongoing ongoing' h (hs.step rfl) (hs'.step rfl)
    rw [Builder.run, Builder.run, Declaring.run_bind, Declaring.run_bind, run_attempt, run_attempt]
    rcases hrun : (declare s).run.run c with _ | ⟨answer, d⟩ <;>
      rcases hrun' : (declare s).run.run c' with _ | ⟨answer', d'⟩ <;>
      rw [hrun, hrun'] at hboth
    · exact .none
    · cases hboth
    · cases hboth
    · cases hboth with
      | some hsame =>
        obtain ⟨happened, hleads⟩ := htraces hrun (fun answer => .host (next answer)) ongoing
        obtain ⟨happened', hleads'⟩ := htraces hrun' (fun answer => .host (next' answer)) ongoing'
        exact ih _ _ hsame.answer hsame.state ((hs.step rfl).leads hleads) ((hs'.step rfl).leads hleads')
  | @lower e e' next next' he _ ih =>
    obtain ⟨hanswer, hstate⟩ := h.lower he
    rw [Builder.run, Builder.run, Declaring.run_bind, Declaring.run_bind, run_attempt, run_attempt, run_perform,
      run_perform]
    exact ih _ _ hanswer hstate (hs.step rfl) (hs'.step rfl)
  | @inspect next next' _ ih =>
    have hnext : Moment.Supplied ⟨c', .host (next' c'.options c'.graph), ongoing'⟩ := hs'.step rfl
    rw [h.options] at hnext
    show SameRun waiting Expr.Akin _ (((next' c'.options c'.graph).run declare).run.run c')
    rw [h.options]
    exact ih _ _ _ h (hs.step rfl) hnext
  | @getState next next' _ ih =>
    have hnext : Moment.Supplied ⟨c', .host (next' c'.host), ongoing'⟩ := hs'.step rfl
    rw [h.host] at hnext
    show SameRun waiting Expr.Akin _ (((next' c'.host).run declare).run.run c')
    rw [h.host]
    exact ih _ h (hs.step rfl) hnext
  | setState state _ ih =>
    have hset : Akin waiting { c with host := state } { c' with host := state } := { h with host := rfl }
    exact ih hset (hs.step rfl) (hs'.step rfl)

/-! ### Declarations -/

theorem declaresAlike_declareBy {build : Definition σ → Declaring σ Declaration}
    (hbuild : ∀ {s d d' c c' next next' ongoing ongoing'}, c.definition? s = some d → c'.definition? s = some d' →
      d.Akin d' → d.status = .undeclared → d'.status = .undeclared → Akin waiting c c' →
      Moment.Supplied ⟨c, .declare s next, ongoing⟩ → Moment.Supplied ⟨c', .declare s next', ongoing'⟩ →
      SameRun waiting Declaration.Akin ((build d).run.run (c.withStatus s .declaring))
        ((build d').run.run (c'.withStatus s .declaring))) :
    DeclaresAlike waiting (declareBy build) := by
  intro s c c' next next' ongoing ongoing' h hs hs'
  rw [run_declareBy, run_declareBy]
  have hdefinition := h.definition? s
  rcases hd : c.definition? s with _ | d <;> rcases hd' : c'.definition? s with _ | d' <;> rw [hd, hd'] at hdefinition
  · exact .some ⟨.error rfl, h⟩
  · cases hdefinition
  · cases hdefinition
  cases hdefinition with
  | some hdd =>
    have hstatus := hdd.status
    dsimp only
    rcases hstat : d.status with _ | _ | decl <;> rcases hstat' : d'.status with _ | _ | decl' <;>
      rw [hstat, hstat'] at hstatus <;> cases hstatus
    · have hboth := hbuild hd hd' hdd hstat hstat' h hs hs'
      dsimp only
      generalize (build d).run.run (c.withStatus s .declaring) = r at hboth ⊢
      generalize (build d').run.run (c'.withStatus s .declaring) = r' at hboth ⊢
      cases hboth with
      | none => exact .none
      | some hsame => exact .some ⟨hsame.answer, hsame.state.record s hsame.answer⟩
    · exact .some ⟨.error rfl, h⟩
    · rename_i hdecl
      exact .some ⟨.ok hdecl, h⟩

/-- Compilers that are akin declare alike. -/
theorem declaresAlike_declare (depth : Nat) : DeclaresAlike waiting (declare (σ := σ) depth) := by
  induction depth with
  | zero =>
    refine declaresAlike_declareBy fun _ _ _ _ _ _ _ _ => ?_
    exact .none
  | succ depth ih =>
    refine declaresAlike_declareBy ?_
    intro s d d' c c' next next' ongoing ongoing' hd hd' hdd hstatus hstatus' h hs hs'
    obtain ⟨-, hhandle⟩ := definition?_eq_some hd
    have hhandle' := hdd.handle.trans hhandle
    have hbegun := h.withStatus s .declaring
    have hshort := hs.here
    have hshort' := hs'.here
    simp only [Moment.lacks, hd, hstatus, Status.isUndeclared, Bool.true_and] at hshort
    simp only [Moment.lacks, hd', hstatus', Status.isUndeclared, Bool.true_and] at hshort'
    obtain ⟨hparams, hbound⟩ := concurs_bindParams s.params _ _ hbegun hshort hshort'
    have hstep : Moment.step ⟨c, .declare s next, ongoing⟩ = some (Moment.request c s next ongoing) := rfl
    have hstep' : Moment.step ⟨c', .declare s next', ongoing'⟩ = some (Moment.request c' s next' ongoing') := rfl
    simp only [Moment.request, hd, hstatus] at hstep
    simp only [Moment.request, hd', hstatus'] at hstep'
    rw [run_build, run_build, hhandle, hhandle']
    rcases hrun : (s.params.mapM bindParam).run.run (c.withStatus s .declaring) with ⟨e | params, c₁⟩ <;>
      rcases hrun' : (s.params.mapM bindParam).run.run (c'.withStatus s .declaring) with ⟨e' | params', c₁'⟩ <;>
      rw [hrun, hrun'] at hparams hbound <;> cases hparams
    · exact .some ⟨.error ‹_›, hbound⟩
    · rename_i hparams
      simp only [hrun] at hstep
      simp only [hrun'] at hstep'
      have hholders : List.Forall₂ Variable.Akin (params.map (·.1)) (params'.map (·.1)) :=
        List.forall₂_map_left_iff.2 (List.forall₂_map_right_iff.2 (hparams.imp fun _ _ hp => hp.1))
      have hhandles : List.Forall₂ Arg.Akin (params.map (·.2)) (params'.map (·.2)) :=
        List.forall₂_map_left_iff.2 (List.forall₂_map_right_iff.2 (hparams.imp fun _ _ hp => hp.2))
      have hboth := hbound.run ih (Moment.traces_declare depth) (hdd.body s _ _ hhandles) (hs.step hstep)
        (hs'.step hstep')
      dsimp only
      generalize ((d.body s (params.map (·.2))).run (declare depth)).run.run c₁ = r at hboth ⊢
      generalize ((d'.body s (params'.map (·.2))).run (declare depth)).run.run c₁' = r' at hboth ⊢
      cases hboth with
      | none => exact .none
      | some hsame => exact .some (hsame.state.conclude s hholders hsame.answer)

/-! ### Compilations -/

/-- If no subroutine waits for one compiler, none does for the other, and both have nothing to do. -/
theorem Akin.declarePending_nil (h : Akin waiting c c') (hwaiting : waiting) (hpending : c.pending = [])
    (depth rounds : Nat) :
    SameRun waiting (fun _ _ => True) ((Compiler.declarePending depth rounds).run.run c)
      ((Compiler.declarePending depth rounds).run.run c') := by
  rw [Compiler.declarePending_nil _ _ hpending,
    Compiler.declarePending_nil _ _ ((h.pending hwaiting).trans hpending)]
  exact .some ⟨.ok trivial, h⟩

/-- Compilers that are akin declare the subroutines that wait alike. -/
theorem Akin.declarePending (h : Akin waiting c c') (hwaiting : waiting) (depth rounds : Nat)
    (hs : Moment.Supplied ⟨c, .settle, []⟩) (hs' : Moment.Supplied ⟨c', .settle, []⟩) :
    SameRun waiting (fun _ _ => True) ((Compiler.declarePending depth rounds).run.run c)
      ((Compiler.declarePending depth rounds).run.run c') := by
  induction rounds generalizing c c' with
  | zero =>
    have hpending' := h.pending hwaiting
    cases hpending : c.pending with
    | nil => exact h.declarePending_nil hwaiting hpending depth _
    | cons s rest =>
      rw [hpending] at hpending'
      rw [Compiler.declarePending, Declaring.run_bind, Declaring.run_bind, Steady.run_get, Steady.run_get]
      simp only [hpending, hpending']
      exact .none
  | succ rounds ih =>
    have hpending' := h.pending hwaiting
    cases hpending : c.pending with
    | nil => exact h.declarePending_nil hwaiting hpending depth _
    | cons s rest =>
      rw [hpending] at hpending'
      have hstep : Moment.step ⟨c, .settle, []⟩ =
          some (⟨{ c with pending := rest }, .declare s .afterDeclaring, []⟩, []) := by
        simp only [Moment.step, hpending]
      have hstep' : Moment.step ⟨c', .settle, []⟩ =
          some (⟨{ c' with pending := rest }, .declare s .afterDeclaring, []⟩, []) := by
        simp only [Moment.step, hpending']
      have hrest : Akin waiting { c with pending := rest } { c' with pending := rest } :=
        { h with pending := fun _ => rfl }
      have hboth := declaresAlike_declare depth s _ _ _ _ _ _ hrest (hs.step hstep) (hs'.step hstep')
      rw [declarePending_cons _ _ hpending, declarePending_cons _ _ hpending']
      rcases hrun : (declare depth s).run.run { c with pending := rest } with _ | ⟨answer, d⟩ <;>
        rcases hrun' : (declare depth s).run.run { c' with pending := rest } with _ | ⟨answer', d'⟩ <;>
        rw [hrun, hrun'] at hboth
      · exact .none
      · cases hboth
      · cases hboth
      cases hboth with
      | some hsame =>
        obtain ⟨happened, hleads⟩ := Moment.traces_declare depth hrun .afterDeclaring []
        obtain ⟨happened', hleads'⟩ := Moment.traces_declare depth hrun' .afterDeclaring []
        obtain ⟨hanswer, hstate⟩ := hsame
        cases hanswer with
        | error he => exact .some ⟨.error he, hstate⟩
        | ok _ => exact ih hstate ((hs.step hstep).leads hleads) ((hs'.step hstep').leads hleads')

/-- While a main program is compiled no slot is lacking. -/
def CompilesSupplied (c : Compiler σ) (root : Expr) : Prop :=
  ∀ main lowered, (lower root).run.run { c with current := none } = (.ok main, lowered) →
    Moment.Supplied ⟨lowered, .settle, []⟩

theorem compilesSupplied_of_suppliedFor {n : Nat} {root : Expr}
    (h : Moment.suppliedFor n ⟨((lower root).run.run { c with current := none }).2, .settle, []⟩ = true) :
    c.CompilesSupplied root := by
  intro main lowered hrun
  rw [hrun] at h
  exact Moment.supplied_of_suppliedFor h

/-- The two compilations have declared the same subroutines. -/
def SameDeclared (compilation compilation' : Compilation) : Prop :=
  compilation'.declarations.map (·.subroutine) = compilation.declarations.map (·.subroutine)

/-- Compilers that are akin compile a main program to the same subroutines. -/
theorem Akin.compile (h : Akin waiting c c') (hwaiting : waiting) (limit : Nat) {root root' : Expr}
    (hroot : root.Akin root') (hs : c.CompilesSupplied root) (hs' : c'.CompilesSupplied root') :
    SameRun waiting SameDeclared ((Compiler.compile limit root).run.run c) ((Compiler.compile limit root').run.run c') := by
  have hbegun : Akin waiting { c with current := none } { c' with current := none } := { h with current := rfl }
  obtain ⟨hanswer, hlowered⟩ := hbegun.lower hroot
  rw [Moment.run_compile, Moment.run_compile]
  rcases hrun : (Compiler.lower root).run.run { c with current := none } with ⟨answer, d⟩
  rcases hrun' : (Compiler.lower root').run.run { c' with current := none } with ⟨answer', d'⟩
  rw [hrun, hrun'] at hanswer hlowered
  cases hanswer with
  | error he => exact .some ⟨.error he, hlowered⟩
  | ok _ =>
    have hboth := hlowered.declarePending hwaiting limit limit (hs _ _ hrun) (hs' _ _ hrun')
    dsimp only at hboth ⊢
    generalize (Compiler.declarePending limit limit).run.run d = r at hboth ⊢
    generalize (Compiler.declarePending limit limit).run.run d' = r' at hboth ⊢
    cases hboth with
    | none => exact .none
    | @some r r' hsame =>
      obtain ⟨hanswer, hstate⟩ := hsame
      refine .some ⟨?_, hstate⟩
      dsimp only
      generalize r.1 = answer at hanswer ⊢
      generalize r'.1 = answer' at hanswer ⊢
      cases hanswer with
      | ok _ => exact .ok hstate.declarations
      | error he => exact .error he

/-! ### Attempts -/

/-- What no request changes. -/
structure Fixed (c c' : Compiler σ) : Prop where
  key : c'.key = c.key
  options : c'.options = c.options
  capacity : c'.slots.capacity = c.slots.capacity
  current : c'.current = c.current

theorem Fixed.trans {c'' : Compiler σ} (h : c.Fixed c') (h' : c'.Fixed c'') : c.Fixed c'' :=
  ⟨h'.key.trans h.key, h'.options.trans h.options, h'.capacity.trans h.capacity, h'.current.trans h.current⟩

theorem Allots.fixed (h : c.Allots c') : c.Fixed c' := by
  rw [h.rest]
  exact ⟨rfl, rfl, h.slots.grows.capacity, rfl⟩

theorem fixed_conclude {s : Subroutine} {holders : List Variable} {built : Except CompileError Expr}
    {answer : Except CompileError Declaration} (h : c.conclude s holders built = (answer, c')) : c.Fixed c' := by
  unfold conclude at h
  split at h
  · cases h
    exact ⟨rfl, rfl, rfl, rfl⟩
  · split at h
    · cases h
      exact ⟨rfl, rfl, rfl, rfl⟩
    · rename_i code _
      rcases hlower : (lower code).run.run { c with current := some s } with ⟨lowered, c₁⟩
      simp only [hlower] at h
      cases h
      rw [(Moment.advances_lower hlower).rest]
      exact ⟨rfl, rfl, rfl, rfl⟩

theorem fixed_withStatus (s : Subroutine) (status : Status) : c.Fixed (c.withStatus s status) := ⟨rfl, rfl, rfl, rfl⟩

theorem fixed_record (s : Subroutine) (answer : Except CompileError Declaration) : c.Fixed (c.record s answer) := by
  cases answer <;> exact ⟨rfl, rfl, rfl, rfl⟩

theorem fixed_of_move {m m' : Moment σ} {happened : List Event} (h : Moment.Move m happened m') :
    m.compiler.Fixed m'.compiler := by
  cases h with
  | gives hnew => exact (allots_newVariable hnew).fixed
  | answers hquiet =>
    cases hquiet with
    | allots hallots => exact hallots.fixed
    | define => exact ⟨rfl, rfl, rfl, rfl⟩
    | lowers _ hadvances =>
      rw [hadvances.rest]
      exact ⟨rfl, rfl, rfl, rfl⟩
    | host => exact ⟨rfl, rfl, rfl, rfl⟩
  | turns => exact ⟨rfl, rfl, rfl, rfl⟩
  | replies => exact ⟨rfl, rfl, rfl, rfl⟩
  | @refuses _ _ s _ _ _ e _ _ hparams =>
    exact ((fixed_withStatus s .declaring).trans (allots_bindParams hparams).fixed).trans (fixed_record s (.error e))
  | begins _ _ hparams => exact (fixed_withStatus _ _).trans (allots_bindParams hparams).fixed
  | ends hend => exact (fixed_conclude hend).trans (fixed_record _ _)

theorem fixed_of_leads {m m' : Moment σ} {happened : List Event} (h : Moment.Leads m happened m') :
    m.compiler.Fixed m'.compiler := by
  induction h with
  | here => exact ⟨rfl, rfl, rfl, rfl⟩
  | step hstep _ ih => exact (fixed_of_move (Moment.move_of_step hstep)).trans ih

/-- A declaration, made or not, changes nothing of that. -/
theorem fixed_of_declare {depth : Nat} {s : Subroutine} {answer : Except CompileError Declaration}
    (h : (declare depth s).run.run c = some (answer, c')) : c.Fixed c' := by
  obtain ⟨happened, hleads⟩ := Moment.traces_declare depth h .afterDeclaring []
  exact fixed_of_leads hleads

/-- Two hosts that do not look at numbers have done the same with compilers that were the same, but the second one has
also asked for declarations that failed, by which no subroutine was defined or declared, nor has any come to wait if
`waiting`.  Whatever the second host remembers of these attempts, the first one knows as well. -/
inductive Retried (waiting : Prop) : Compiler σ → Compiler σ → Prop
  | begin {c : Compiler σ} : (∀ d ∈ c.definitions, d.body.Blind) → Retried waiting c c
  | attempt {c c' c'' : Compiler σ} {depth : Nat} {s : Subroutine} {e : CompileError} : Retried waiting c c' →
      (declare depth s).run.run c' = some (.error e, c'') → c''.definitions = c'.definitions →
      (waiting → c''.pending = c'.pending) → Retried waiting { c with host := c''.host } c''
  | meanwhile {c c' c₁ c₁' : Compiler σ} {depth : Nat} {b b' : Builder σ} {answer answer' : Except CompileError Expr} :
      Retried waiting c c' → b.Akin b' → Moment.Supplied ⟨c, .host b, []⟩ → Moment.Supplied ⟨c', .host b', []⟩ →
      (b.run (declare depth)).run.run c = some (answer, c₁) →
      (b'.run (declare depth)).run.run c' = some (answer', c₁') → Retried waiting c₁ c₁'

theorem Retried.akin (h : Retried waiting c c') : Akin waiting c c' := by
  induction h with
  | @begin c hblind =>
    have hself : ∀ d ∈ c.definitions, d.Akin d := fun d hd => ⟨rfl, .refl _, hblind d hd⟩
    exact ⟨rfl, rfl, rfl, List.forall₂_same.2 hself, fun _ => rfl, rfl, rfl⟩
  | attempt _ hfails hdefinitions hpending ih =>
    have hfixed := fixed_of_declare hfails
    exact ⟨hfixed.key.trans ih.key, hfixed.options.trans ih.options, hfixed.capacity.trans ih.capacity,
      hdefinitions ▸ ih.definitions, fun hwaiting => (hpending hwaiting).trans (ih.pending hwaiting),
      hfixed.current.trans ih.current, rfl⟩
  | @meanwhile c c' c₁ c₁' depth b b' answer answer' _ hb hs hs' hrun hrun' ih =>
    have hboth := ih.run (declaresAlike_declare depth) (Moment.traces_declare depth) hb hs hs'
    rw [hrun, hrun'] at hboth
    cases hboth with
    | some hsame => exact hsame.state

/-- A host that ends with the body of a declaration, or with the error. -/
def goesOn (answer : Except CompileError Declaration) : Task σ := .host (.ended (answer.map (·.body)))

/-- The subroutines that a compilation gives as declared, if it succeeds, and those that have been declared after it. -/
def declaredBy (outcome : Except CompileError Compilation × Compiler σ) : Option (List Subroutine) × List Subroutine :=
  (outcome.1.toOption.map (·.declarations.map (·.subroutine)), outcome.2.declarations.map (·.subroutine))

theorem declaredBy_eq {outcome outcome' : Except CompileError Compilation × Compiler σ}
    (h : SameEnd (Akin waiting) CompileError.Akin SameDeclared outcome outcome') :
    declaredBy outcome' = declaredBy outcome := by
  have hanswer := h.answer
  refine Prod.ext ?_ h.state.declarations
  dsimp only [declaredBy]
  generalize outcome.1 = answer at hanswer ⊢
  generalize outcome'.1 = answer' at hanswer ⊢
  cases hanswer with
  | ok hsubs => exact congrArg some hsubs
  | error _ => rfl

/-- Two hosts that do not look at numbers have done the same, but one of them has also made attempts to declare
subroutines that failed.  Whatever they ask for next to be declared, the attempts make no difference to whether it is,
unless a slot is lacking for it or would be lacking without them.  If they have left no subroutine waiting either, and no
slot is lacking, a compilation after that succeeds if it would have without them and declares the same subroutines. -/
theorem retried_declaration {waiting : Prop} {c c' : Compiler σ} (h : Retried waiting c c') {s : Subroutine}
    (hs : Moment.Supplied ⟨c, .declare s goesOn, []⟩) (hs' : Moment.Supplied ⟨c', .declare s goesOn, []⟩) (depth : Nat) :
    ((declare depth s).run.run c').map (·.1.isOk) = ((declare depth s).run.run c).map (·.1.isOk) ∧
    (waiting → ∀ answer answer' d d', (declare depth s).run.run c = some (answer, d) →
      (declare depth s).run.run c' = some (answer', d') → ∀ limit root root', root.Akin root' →
      d.CompilesSupplied root → d'.CompilesSupplied root' →
      ((compile limit root').run.run d').map declaredBy = ((compile limit root).run.run d).map declaredBy) := by
  have hboth := declaresAlike_declare depth s c c' _ _ [] [] h.akin hs hs'
  refine ⟨hboth.map_eq fun _ _ hsame => hsame.answer.isOk_eq, ?_⟩
  intro hwaiting answer answer' d d' hrun hrun' limit root root' hroot hd hd'
  rw [hrun, hrun'] at hboth
  cases hboth with
  | some hafter =>
    exact (hafter.state.compile hwaiting limit hroot hd hd').map_eq fun _ _ hsame => declaredBy_eq hsame

namespace Attempts

/-- The subroutine that is asked for again. -/
def f : Subroutine := ⟨0, ⟨0⟩, "f", [⟨"n", .value, .uint64⟩], .uint64⟩

def g : Subroutine := ⟨0, ⟨1⟩, "g", [], .uint64⟩

def one : Body Unit := fun _ _ => .done (.int 1)

def notYet : Builder Unit := .fail (.composition "not yet")

/-- Calls the subroutine of a name, and fails as long as there is none, but not before it has done something else. -/
def calls (name : String) (before : Builder Unit → Builder Unit) : Body Unit := fun _ _ => .lookup name fun
  | none => before notYet
  | some s => .done (.call s [])

/-- A compiler with so many slots, for which two subroutines have been defined. -/
def start (slotCount : UInt64) (body other : Body Unit) : Compiler Unit :=
  let c : Compiler Unit := { key := 0, options := { slotCount }, slots := .empty slotCount, host := () }
  (define (define c "f" f.params .uint64 body).2 "g" g.params .uint64 other).2

/-- What the host does after the attempt. -/
def defineLater : Builder Unit := .define "later" [] .uint64 one fun _ => .done (.int 0)

def root : Expr := .call f [.value (.int 7)]

/-- An attempt has been made, but no subroutine with the name has been defined. -/
def tried : Compiler Unit :=
  { start 2 (calls "later" id) one with slots := { capacity := 2, next := 1, pooled := [0] } }

/-- The subroutine with the name has been defined. -/
def supplemented (c : Compiler Unit) : Compiler Unit := (define c "later" [] .uint64 one).2

/-- The compiler after a declaration. -/
def afterwards (c : Compiler Unit) : Compiler Unit := (((declare 4 f).run.run c).map (·.2)).getD c

theorem fails_tried :
    (declare 4 f).run.run (start 2 (calls "later" id) one) = some (.error (.composition "not yet"), tried) := by
  cbv

theorem retried : Retried True (supplemented (start 2 (calls "later" id) one)) (supplemented tried) := by
  have hone : one.Blind := fun _ _ _ _ => .done rfl
  have hcalls : Body.Blind (calls "later" id) := by
    refine fun _ _ _ _ => .lookup _ fun answer => ?_
    cases answer with
    | none => exact .fail rfl
    | some s => exact .done rfl
  have hbegin : Retried True (start 2 (calls "later" id) one) (start 2 (calls "later" id) one) := by
    refine .begin fun d hd => ?_
    rcases List.mem_pair.1 hd with rfl | rfl
    · exact hcalls
    · exact hone
  have hlater : defineLater.Akin defineLater := .define _ _ _ hone fun _ => .done rfl
  have hruns : ∀ c, (defineLater.run (declare 4)).run.run c = some (.ok (.int 0), supplemented c) := fun _ => rfl
  exact .meanwhile (hbegin.attempt fails_tried rfl fun _ => rfl) hlater (Moment.supplied_of_suppliedFor (n := 3) rfl)
    (Moment.supplied_of_suppliedFor (n := 3) rfl) (hruns _) (hruns _)

theorem run_afterwards {c : Compiler Unit} (h : ((declare 4 f).run.run c).isSome = true) :
    ∃ answer, (declare 4 f).run.run c = some (answer, afterwards c) := by
  obtain ⟨⟨answer, d⟩, hrun⟩ := Option.isSome_iff_exists.1 h
  exact ⟨answer, by rw [afterwards, hrun]; rfl⟩

end Attempts

open Attempts in
/-- The second attempt succeeds, as the first would have if it had been made then. -/
theorem retried_declaration_later :
    Retried True (supplemented (start 2 (calls "later" id) one)) (supplemented tried) ∧
      ((declare 4 f).run.run (supplemented tried)).map (·.1.isOk) = some true ∧
      (((compile 4 root).run.run (afterwards (supplemented tried))).map declaredBy).map
        (·.1.map (·.map (·.name))) = some (some ["f", "later"]) := by
  obtain ⟨hdeclared, hcompiled⟩ := retried_declaration (s := f) retried
    (Moment.supplied_of_suppliedFor (n := 9) (by cbv)) (Moment.supplied_of_suppliedFor (n := 9) (by cbv)) 4
  obtain ⟨answer, huntried⟩ := run_afterwards (c := supplemented (start 2 (calls "later" id) one)) (by cbv)
  obtain ⟨answer', htried⟩ := run_afterwards (c := supplemented tried) (by cbv)
  refine ⟨retried, hdeclared.trans (by cbv), ?_⟩
  rw [hcompiled trivial answer answer' _ _ huntried htried 4 root root (.refl _)
    (compilesSupplied_of_suppliedFor (n := 9) (by cbv)) (compilesSupplied_of_suppliedFor (n := 9) (by cbv))]
  cbv

namespace Attempts

/-- Fails unless the next slot is another than in the first attempt. -/
def needsOther : Body Unit := fun _ _ => .newVariable .uint64 .pool none fun
  | .ok v => if v.ownSlot? = some 1 then notYet else .done (.int 1)
  | .error e => .fail e

/-- Fails unless blocks have been made, but makes some. -/
def needsBlocks : Body Unit := fun _ _ => .inspect fun _ graph =>
  if graph.size = 0 then .lower (.int 1) fun _ => notYet else .done (.int 1)

/-- Has another subroutine declared before it looks for the one that is not yet there. -/
def needsOtherDeclared : Body Unit := fun _ _ => .declare g (Builder.orFail fun _ => .lookup "later" fun
  | none => notYet
  | some _ => .done (.int 1))

/-- Fails as soon as a subroutine of that name has been defined. -/
def onlyBefore : Body Unit := fun _ _ => .lookup "later" fun
  | none => .done (.int 1)
  | some _ => notYet

/-- Whether a declaration succeeds, and what a compilation after it declares. -/
def outcome (c : Compiler Unit) : Option (Bool × Option (List String)) := do
  let (answer, d) ← (declare 4 f).run.run c
  let (compiled, _) ← (compile 4 root).run.run d
  return (answer.isOk, compiled.toOption.map (·.declarations.map (·.subroutine.name)))

/-- Whether a first attempt succeeds, then what comes of a second one, and what would without the first. -/
def outcomes (c : Compiler Unit) : Option (Bool × (Bool × Option (List String)) × (Bool × Option (List String))) := do
  let (answer, d) ← (declare 4 f).run.run c
  return (answer.isOk, ← outcome (supplemented d), ← outcome (supplemented c))

end Attempts

open Attempts in
/-- An attempt that fails may take away the only slot, leave a subroutine waiting, define or declare another that is
needed later, or use the slot or make the blocks that the host looks at: what comes of a second attempt then differs. -/
theorem retried_declaration_differs :
    outcomes (start 1 (calls "later" id) one) = some (false, (false, none), (true, some ["f", "later"])) ∧
    outcomes (start 9 (calls "later" fun next => .lower (.call g []) fun _ => next) one) =
      some (false, (true, some ["f", "g", "later"]), (true, some ["f", "later"])) ∧
    outcomes (start 9 (calls "helper" fun next => .define "helper" [] .uint64 one fun _ => next) one) =
      some (false, (true, some ["f", "helper"]), (false, some ["f", "helper"])) ∧
    outcomes (start 9 needsOtherDeclared onlyBefore) = some (false, (true, some ["f", "g"]), (false, none)) ∧
    outcomes (start 9 needsOther one) = some (false, (true, some ["f"]), (false, some ["f"])) ∧
    outcomes (start 9 needsBlocks one) = some (false, (true, some ["f"]), (false, some ["f"])) := by
  refine ⟨?_, ?_, ?_, ?_, ?_, ?_⟩ <;> cbv

end Compiler

end ScratchMachine
