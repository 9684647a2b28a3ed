import ScratchMachine.Proofs.Availability
import ScratchMachine.Proofs.Worklist

/-!
# The same requests to two compilers

Two compilers differ in their options only, and hosts that do not look at the options ask the same of both.  Whatever
the first one grants, the second one grants as well, if it has no fewer slots, and if its version has all operations of
the graph that the first one ends with.

* `Builder.Oblivious`: the hosts that neither look at the options nor have anything lowered or declared.
* `Builder.insisting`: a host that gives up where a variable is refused.
* `Compiler.Twins`: what the two compilers have in common.
* `Compiler.Twins.declare`, `Compiler.Twins.compile`: they declare and compile the same.
-/

namespace ScratchMachine

open Fallible Declaring

/-! ### Slots -/

namespace SlotAllocator

variable {r r' : SlotAllocator} {capacity : UInt64}

/-- With more slots, the pool goes on to the same one. -/
theorem freeFrom?_widen (hle : r.capacity ≤ capacity) {candidate slot : UInt64}
    (h : r.freeFrom? candidate = some slot) :
    { r with capacity }.freeFrom? candidate = some slot := by
  fun_induction freeFrom? r candidate with
  | case1 candidate hlt hmem ih =>
    rw [freeFrom?, if_pos (UInt64.lt_of_lt_of_le hlt hle), if_pos hmem]
    exact ih h
  | case2 candidate hlt hmem =>
    cases h
    rw [freeFrom?, if_pos (UInt64.lt_of_lt_of_le hlt hle), if_neg hmem]
  | case3 candidate hlt => cases h

/-- With more slots, a request that was granted is granted in the same way. -/
theorem take_widen (hle : r.capacity ≤ capacity) {request : SlotRequest} {location : Location}
    (h : r.take request = .ok (location, r')) :
    r'.capacity = r.capacity ∧ { r with capacity }.take request = .ok (location, { r' with capacity }) := by
  cases request with
  | pool =>
    simp only [take, takePooled] at h ⊢
    split at h
    · rename_i slot hslot
      cases h
      rw [freeFrom?_widen hle hslot]
      exact ⟨rfl, rfl⟩
    · cases h
  | fixed id =>
    simp only [take, takeFixed] at h ⊢
    split at h
    · rename_i hid
      have hwide : 0 ≤ id ∧ id < capacity.toNat :=
        ⟨hid.1, hid.2.trans_le (Int.ofNat_le.2 (UInt64.le_iff_toNat_le.1 hle))⟩
      rw [if_pos hwide]
      split at h
      · cases h
      · rename_i hpool
        cases h
        exact ⟨rfl, if_neg hpool⟩
    · cases h
  | computed index =>
    simp only [take, takeComputed] at h ⊢
    split at h
    · rename_i htype
      cases h
      exact ⟨rfl, if_pos htype⟩
    · cases h

end SlotAllocator

/-! ### Hosts -/

namespace Builder

variable {σ : Type} {alike : Prop}

/-- The host, and the hosts of the subroutines that it defines, neither look at the options nor have anything lowered or
declared. -/
def Oblivious : Builder σ → Prop
  | .done _ | .fail _ => True
  | .newVariable _ _ _ next => ∀ answer, (next answer).Oblivious
  | .define _ _ _ body next => (∀ s handles, (body s handles).Oblivious) ∧ ∀ s, (next s).Oblivious
  | .lookup _ next => ∀ answer, (next answer).Oblivious
  | .getState next => ∀ state, (next state).Oblivious
  | .setState _ next => next.Oblivious
  | .declare .. | .lower .. | .inspect .. => False

/-- The same host, but it gives up where a variable is refused, and so do the hosts of the subroutines that it
defines. -/
def insisting : Builder σ → Builder σ
  | .done body => .done body
  | .fail e => .fail e
  | .newVariable type request target next => .newVariable type request target (orFail fun v => (next (.ok v)).insisting)
  | .define name params returns body next =>
    .define name params returns (fun s handles => (body s handles).insisting) fun s => (next s).insisting
  | .lookup name next => .lookup name fun answer => (next answer).insisting
  | .declare s next => .declare s fun answer => (next answer).insisting
  | .lower e next => .lower e fun answer => (next answer).insisting
  | .inspect next => .inspect fun options graph => (next options graph).insisting
  | .getState next => .getState fun state => (next state).insisting
  | .setState state next => .setState state next.insisting

/-- A second host asks for the same as the first, as long as the first gets what it asks for.  Where a variable is
refused, the second still asks for the same, or else the first gives up. -/
inductive Follows (alike : Prop) : Builder σ → Builder σ → Prop
  | done (body : Expr) : Follows alike (.done body) (.done body)
  | fail (e : CompileError) (b : Builder σ) : Follows alike (.fail e) b
  | newVariable (type : ValueType) (request : SlotRequest) (target : Option Variable)
      {next next' : Except CompileError Variable → Builder σ} :
      (∀ v, Follows alike (next (.ok v)) (next' (.ok v))) →
      (alike → ∀ e, Follows alike (next (.error e)) (next' (.error e))) →
      (¬ alike → ∀ e, ∃ e', next (.error e) = .fail e') →
      Follows alike (.newVariable type request target next) (.newVariable type request target next')
  | define (name : String) (params : List Param) (returns : ValueType) {body body' : Body σ}
      {next next' : Subroutine → Builder σ} : (∀ s handles, Follows alike (body s handles) (body' s handles)) →
      (∀ s, Follows alike (next s) (next' s)) →
      Follows alike (.define name params returns body next) (.define name params returns body' next')
  | lookup (name : String) {next next' : Option Subroutine → Builder σ} :
      (∀ answer, Follows alike (next answer) (next' answer)) → Follows alike (.lookup name next) (.lookup name next')
  | getState {next next' : σ → Builder σ} :
      (∀ state, Follows alike (next state) (next' state)) → Follows alike (.getState next) (.getState next')
  | setState (state : σ) {next next' : Builder σ} :
      Follows alike next next' → Follows alike (.setState state next) (.setState state next')

/-- A host that looks at nothing asks for the same twice. -/
theorem Oblivious.follows {b : Builder σ} (h : b.Oblivious) : Follows True b b := by
  induction b with
  | done body => exact .done body
  | fail e => exact .fail e _
  | newVariable type request target next ih =>
    exact .newVariable type request target (fun v => ih _ (h _)) (fun _ e => ih _ (h _)) fun hne => absurd trivial hne
  | define name params returns body next ihbody ihnext =>
    exact .define name params returns (fun s handles => ihbody s handles (h.1 s handles)) fun s => ihnext s (h.2 s)
  | lookup name next ih => exact .lookup name fun answer => ih answer (h answer)
  | getState next ih => exact .getState fun state => ih state (h state)
  | setState state next ih => exact .setState state (ih h)
  | declare => exact h.elim
  | lower => exact h.elim
  | inspect => exact h.elim

/-- As long as a host gets all variables, it asks for the same as one that insists on them. -/
theorem Oblivious.follows_insisting {b : Builder σ} (h : b.Oblivious) : Follows False b.insisting b := by
  induction b with
  | done body => exact .done body
  | fail e => exact .fail e _
  | newVariable type request target next ih =>
    exact .newVariable type request target (fun v => ih _ (h _)) (fun hfalse => hfalse.elim) fun _ e => ⟨e, rfl⟩
  | define name params returns body next ihbody ihnext =>
    exact .define name params returns (fun s handles => ihbody s handles (h.1 s handles)) fun s => ihnext s (h.2 s)
  | lookup name next ih => exact .lookup name fun answer => ih answer (h answer)
  | getState next ih => exact .getState fun state => ih state (h state)
  | setState state next ih => exact .setState state (ih h)
  | declare => exact h.elim
  | lower => exact h.elim
  | inspect => exact h.elim

end Builder

namespace Compiler

variable {σ α β : Type} {alike : Prop} {o : Options} {c c' c₁ : Compiler σ} {s : Subroutine} {d : Definition σ}

/-! ### Twins -/

/-- Two definitions of one subroutine, of which the second host follows the first. -/
structure Corresponds (alike : Prop) (d d' : Definition σ) : Prop where
  handle : d'.handle = d.handle
  status : d'.status = d.status
  body : ∀ s handles, Builder.Follows alike (d.body s handles) (d'.body s handles)

theorem getElem?_forall₂ {R : α → β → Prop} {l : List α} {l' : List β} (h : List.Forall₂ R l l') (i : Nat) :
    Option.Rel R l[i]? l'[i]? := by
  induction h generalizing i with
  | nil => exact .none
  | cons hab _ ih =>
    cases i with
    | zero => exact .some hab
    | succ i => exact ih i

section Corresponding

variable {l l' : List (Definition σ)} (h : List.Forall₂ (Corresponds alike) l l')

include h

theorem Corresponds.find? (name : String) : (l'.find? (·.handle.name = name)).map (·.handle) =
    (l.find? (·.handle.name = name)).map (·.handle) := by
  induction h with
  | nil => rfl
  | cons hd _ ih =>
    rw [List.find?_cons, List.find?_cons, hd.handle]
    split
    · rw [Option.map_some, Option.map_some, hd.handle]
    · exact ih

theorem Corresponds.filterMap {f : Definition σ → Option β} (hf : ∀ d d', d'.status = d.status → f d' = f d) :
    l'.filterMap f = l.filterMap f := by
  induction h with
  | nil => rfl
  | @cons d d' _ _ hd _ ih => rw [List.filterMap_cons, List.filterMap_cons, hf d d' hd.status, ih]

theorem Corresponds.modify (i : Nat) (status : Status) : List.Forall₂ (Corresponds alike)
    (l.modify i fun d => { d with status }) (l'.modify i fun d => { d with status }) := by
  induction h generalizing i with
  | nil =>
    rw [List.modify_nil]
    exact .nil
  | cons hd hrest ih =>
    cases i with
    | zero =>
      rw [List.modify_zero_cons, List.modify_zero_cons]
      exact .cons ⟨hd.handle, rfl, hd.body⟩ hrest
    | succ i =>
      rw [List.modify_succ_cons, List.modify_succ_cons]
      exact .cons hd (ih i)

end Corresponding

/-- Two compilers of which the second has options `o`, no fewer slots than the first, and everything else in common with
it.  If `alike`, it has as many slots. -/
structure Twins (alike : Prop) (o : Options) (c c' : Compiler σ) : Prop where
  options : c'.options = o
  key : c'.key = c.key
  slots : c'.slots = { c.slots with capacity := c'.slots.capacity }
  capacity : c.slots.capacity ≤ c'.slots.capacity
  same : alike → c'.slots.capacity = c.slots.capacity
  graph : c'.graph = c.graph
  definitions : List.Forall₂ (Corresponds alike) c.definitions c'.definitions
  pending : c'.pending = c.pending
  current : c'.current = c.current
  host : c'.host = c.host

/-- What one of the twins has defined, the other has as well. -/
theorem Twins.definition? (h : Twins alike o c c') (s : Subroutine) :
    Option.Rel (Corresponds alike) (c.definition? s) (c'.definition? s) := by
  unfold Compiler.definition?
  have hplace := getElem?_forall₂ h.definitions s.id.number.toNat
  generalize c.definitions[s.id.number.toNat]? = x at hplace ⊢
  generalize c'.definitions[s.id.number.toNat]? = x' at hplace ⊢
  cases hplace with
  | none => exact .none
  | @some d d' hd =>
    rw [Option.filter_some, Option.filter_some, hd.handle]
    split
    · exact .some hd
    · exact .none

theorem Twins.exists_definition (h : Twins alike o c c') (hd : c.definition? s = some d) :
    ∃ d', c'.definition? s = some d' ∧ Corresponds alike d d' := by
  have hdef := h.definition? s
  rw [hd] at hdef
  generalize c'.definition? s = x at hdef
  cases hdef with
  | some hcorresponds => exact ⟨_, rfl, hcorresponds⟩

theorem Twins.sees (h : Twins alike o c c') : Sees c c' := by
  refine ⟨h.graph, h.pending, h.current, fun s => ?_⟩
  have hdef := h.definition? s
  generalize c.definition? s = x at hdef ⊢
  generalize c'.definition? s = x' at hdef ⊢
  cases hdef with
  | none => rfl
  | some hd => rw [Option.map_some, Option.map_some, hd.status]

theorem Twins.lookup (h : Twins alike o c c') (name : String) : c'.lookup name = c.lookup name :=
  Corresponds.find? h.definitions name

theorem Twins.declarations (h : Twins alike o c c') : c'.declarations = c.declarations := by
  unfold Compiler.declarations
  exact Corresponds.filterMap h.definitions fun d d' hstatus => by rw [hstatus]

theorem Twins.withStatus (h : Twins alike o c c') (s : Subroutine) (status : Status) :
    Twins alike o (c.withStatus s status) (c'.withStatus s status) :=
  { h with definitions := Corresponds.modify h.definitions _ status }

/-- Both define a subroutine under the same handle. -/
theorem Twins.define (h : Twins alike o c c') (name : String) (params : List Param) (returns : ValueType)
    {body body' : Body σ} (hbody : ∀ s handles, Builder.Follows alike (body s handles) (body' s handles)) :
    (c'.define name params returns body').1 = (c.define name params returns body).1 ∧
      Twins alike o (c.define name params returns body).2 (c'.define name params returns body').2 := by
  have hhandle : (c'.define name params returns body').1 = (c.define name params returns body).1 := by
    show Subroutine.mk c'.key ⟨UInt32.ofNat c'.definitions.length⟩ name params returns = _
    rw [h.key, ← h.definitions.length_eq]
    rfl
  refine ⟨hhandle, { h with definitions := ?_ }⟩
  exact List.rel_append h.definitions (.cons ⟨hhandle, rfl, hbody⟩ .nil)

/-! ### Requests for variables -/

/-- What the first compiler grants, the second one grants in the same way; what it refuses, so does the second, if it
has as many slots. -/
def Shared (alike : Prop) (x : Compiling σ α) : Prop :=
  ∀ ⦃o : Options⦄ ⦃c c' c₁ : Compiler σ⦄ ⦃answer : Except CompileError α⦄, Twins alike o c c' →
    x.run.run c = (answer, c₁) → (∀ e, answer = .error e → alike) →
    ∃ c₁', x.run.run c' = (answer, c₁') ∧ Twins alike o c₁ c₁'

theorem shared_pure (a : α) : Shared alike (pure a : Compiling σ α) := by
  intro o c c' c₁ answer h hrun _
  cases hrun
  exact ⟨c', rfl, h⟩

theorem shared_throw (e : CompileError) : Shared alike (throw e : Compiling σ α) := by
  intro o c c' c₁ answer h hrun _
  cases hrun
  exact ⟨c', rfl, h⟩

theorem Shared.bind {x : Compiling σ α} {k : α → Compiling σ β} (hx : Shared alike x) (hk : ∀ a, Shared alike (k a)) :
    Shared alike (x >>= k) := by
  intro o c c' c₁ answer h hrun hgranted
  rw [Fallible.run_bind] at hrun
  rcases hfirst : x.run.run c with ⟨e | a, mid⟩
  · rw [hfirst] at hrun
    cases hrun
    obtain ⟨c₁', hfirst', h'⟩ := hx h hfirst fun e' _ => hgranted e rfl
    exact ⟨c₁', by rw [Fallible.run_bind, hfirst'], h'⟩
  · rw [hfirst] at hrun
    obtain ⟨mid', hfirst', hmid⟩ := hx h hfirst fun e' he => by cases he
    obtain ⟨c₁', hrest, h'⟩ := hk a hmid hrun hgranted
    exact ⟨c₁', by rw [Fallible.run_bind, hfirst']; exact hrest, h'⟩

theorem run_newLocation (request : SlotRequest) (c : Compiler σ) :
    (newLocation request).run.run c =
      match c.slots.take request with
      | .ok (location, slots) => (.ok location, { c with slots })
      | .error e => (.error e, c) := by
  show (liftM (c.slots.take request) >>= fun granted =>
    (modify fun c => { c with slots := granted.2 }) >>= fun _ => pure granted.1 : Compiling σ Location).run.run c = _
  rcases c.slots.take request with e | ⟨location, slots⟩ <;> rfl

theorem shared_newLocation (request : SlotRequest) : Shared alike (newLocation (σ := σ) request) := by
  intro o c c' c₁ answer h hrun hgranted
  rw [run_newLocation] at hrun ⊢
  rcases htake : c.slots.take request with e | ⟨location, slots⟩
  · simp only [htake] at hrun
    cases hrun
    -- both have the same slots
    have hslots := h.slots
    rw [h.same (hgranted e rfl)] at hslots
    replace hslots : c'.slots = c.slots := hslots
    rw [hslots, htake]
    exact ⟨c', rfl, h⟩
  · simp only [htake] at hrun
    cases hrun
    obtain ⟨hcapacity, hwide⟩ := SlotAllocator.take_widen h.capacity htake
    rw [← h.slots] at hwide
    rw [hwide]
    exact ⟨_, rfl, { h with
      slots := rfl
      capacity := hcapacity ▸ h.capacity
      same := fun halike => (h.same halike).trans hcapacity.symm }⟩

theorem shared_newVariable (type : ValueType) (request : SlotRequest) (target : Option Variable) :
    Shared alike (newVariable (σ := σ) type request target) := by
  unfold newVariable
  split
  · exact (shared_newLocation _).bind fun location => shared_pure _
  · split
    · exact (shared_throw _).bind fun _ => shared_pure _
    · exact shared_pure _
  · exact shared_throw _

theorem shared_bindParams (params : List Param) : Shared alike (params.mapM (bindParam (σ := σ))) := by
  have hparam : ∀ p, Shared alike (bindParam (σ := σ) p) := by
    intro p
    unfold bindParam
    split
    · exact (shared_newVariable _ _ _).bind fun v => shared_pure _
    · refine (shared_newVariable _ _ _).bind fun holder => (shared_newVariable _ _ _).bind fun target => ?_
      exact (shared_newVariable _ _ _).bind fun shared => shared_pure _
  induction params with
  | nil => exact shared_pure []
  | cons p params ih =>
    rw [List.mapM_cons]
    exact (hparam p).bind fun a => ih.bind fun l => shared_pure _

/-! ### Hosts and declarations -/

/-- Where the first host builds a body, the second one builds the same. -/
theorem Twins.run {b b' : Builder σ} (hb : Builder.Follows alike b b') (h : Twins alike o c c')
    {declare : Subroutine → Declaring σ Declaration} {body : Expr}
    (hrun : (b.run declare).run.run c = some (.ok body, c₁)) :
    ∃ c₁', (b'.run declare).run.run c' = some (.ok body, c₁') ∧ Twins alike o c₁ c₁' := by
  induction hb generalizing c c' with
  | done body =>
    cases hrun
    exact ⟨c', rfl, h⟩
  | fail e => cases hrun
  | newVariable type request target _ _ hinsists ihgranted ihrefused =>
    rw [Builder.run, Declaring.run_bind, run_attempt, run_perform] at hrun ⊢
    rcases hnew : (newVariable type request target).run.run c with ⟨e | v, mid⟩
    · simp only [hnew, Option.map_some] at hrun
      by_cases halike : alike
      · obtain ⟨mid', hnew', hmid⟩ := shared_newVariable type request target h hnew fun _ _ => halike
        simp only [hnew', Option.map_some]
        exact ihrefused halike e hmid hrun
      · obtain ⟨e', hfail⟩ := hinsists halike e
        rw [hfail] at hrun
        cases hrun
    · simp only [hnew, Option.map_some] at hrun
      obtain ⟨mid', hnew', hmid⟩ := shared_newVariable type request target h hnew fun e he => by cases he
      simp only [hnew', Option.map_some]
      exact ihgranted v hmid hrun
  | @define name params returns handleBody _ _ _ hbody _ _ ih =>
    obtain ⟨hhandle, hdefined⟩ := h.define name params returns hbody
    have hrest := ih (c.define name params returns handleBody).1 hdefined hrun
    rwa [← hhandle] at hrest
  | lookup name _ ih =>
    have hrest := ih _ h hrun
    rwa [← h.lookup name] at hrest
  | getState _ ih =>
    have hrest := ih _ h hrun
    rwa [← h.host] at hrest
  | setState state _ ih =>
    have hset : Twins alike o { c with host := state } { c' with host := state } := { h with host := rfl }
    exact ih hset hrun

/-- Both lower the same. -/
theorem Twins.lower (h : Twins alike o c c') {e : Expr} {f : Fragment} (hlower : (lower e).run.run c = (.ok f, c₁))
    (havailable : c₁.graph.Available o.version) :
    ∃ c₁', (Compiler.lower e).run.run c' = (.ok f, c₁') ∧ Twins alike o c₁ c₁' := by
  refine ⟨_, (lower_gated e).transfers h.sees hlower (h.options ▸ havailable), ?_⟩
  rw [((lower_gated e).gates hlower).rest]
  exact { h with graph := rfl, pending := rfl }

theorem Twins.conclude (h : Twins alike o c c') {holders : List Variable} {built : Except CompileError Expr}
    {decl : Declaration} (hend : c.conclude s holders built = (.ok decl, c₁))
    (havailable : c₁.graph.Available o.version) :
    ∃ c₁', c'.conclude s holders built = (.ok decl, c₁') ∧ Twins alike o c₁ c₁' := by
  unfold Compiler.conclude at hend ⊢
  split at hend
  · cases hend
  split at hend
  · cases hend
  rename_i code _
  rcases hlower : (Compiler.lower code).run.run { c with current := some s } with ⟨e | f, mid⟩
  · simp only [hlower] at hend
    cases hend
  simp only [hlower] at hend
  cases hend
  have hcurrent : Twins alike o { c with current := some s } { c' with current := some s } := { h with current := rfl }
  obtain ⟨mid', hlower', hmid⟩ := hcurrent.lower hlower havailable
  simp only [hlower']
  exact ⟨_, rfl, { hmid with current := h.current }⟩

theorem build_eq_ok_iff {declare : Subroutine → Declaring σ Declaration} {decl : Declaration} :
    (build declare d).run.run c = some (.ok decl, c₁) ↔ ∃ params bound body ready,
      (d.handle.params.mapM bindParam).run.run c = (.ok params, bound) ∧
      ((d.body d.handle (params.map (·.2))).run declare).run.run bound = some (.ok body, ready) ∧
      ready.conclude d.handle (params.map (·.1)) (.ok body) = (.ok decl, c₁) := by
  rw [run_build]
  constructor
  · intro hrun
    rcases hparams : (d.handle.params.mapM bindParam).run.run c with ⟨e | params, bound⟩
    · simp only [hparams] at hrun
      cases hrun
    simp only [hparams] at hrun
    obtain ⟨⟨built, ready⟩, hbody, hend⟩ := Option.map_eq_some_iff.1 hrun
    obtain ⟨rfl, -⟩ := Moment.conclude_eq_ok hend
    exact ⟨params, bound, decl.body, ready, rfl, hbody, hend⟩
  · rintro ⟨params, bound, body, ready, hparams, hbody, hend⟩
    simp only [hparams, hbody, Option.map_some, hend]

theorem declareBy_eq_ok_iff {build : Definition σ → Declaring σ Declaration} {decl : Declaration} :
    (declareBy build s).run.run c = some (.ok decl, c₁) ↔ ∃ d, c.definition? s = some d ∧
      (d.status = .declared decl ∧ c₁ = c ∨ d.status = .undeclared ∧ ∃ done,
        (build d).run.run (c.withStatus s .declaring) = some (.ok decl, done) ∧
        c₁ = done.withStatus s (.declared decl)) := by
  rw [run_declareBy]
  constructor
  · intro hrun
    split at hrun
    · cases hrun
    rename_i d hd
    refine ⟨d, hd, ?_⟩
    split at hrun
    · rename_i decl' hstatus
      cases hrun
      exact .inl ⟨hstatus, rfl⟩
    · cases hrun
    · rename_i hstatus
      obtain ⟨⟨answer, done⟩, hbuild, heq⟩ := Option.map_eq_some_iff.1 hrun
      obtain ⟨rfl, rfl⟩ := Prod.mk.inj heq
      exact .inr ⟨hstatus, done, hbuild, rfl⟩
  · rintro ⟨d, hd, ⟨hstatus, rfl⟩ | ⟨hstatus, done, hbuild, rfl⟩⟩
    · simp only [hd, hstatus]
    · simp only [hd, hstatus, hbuild, Option.map_some]
      rfl

/-- The ways to a declaration. -/
inductive Makes (s : Subroutine) : (depth : Nat) → Declaration → Compiler σ → Compiler σ → Prop
  /-- It has been made before. -/
  | before {depth : Nat} {decl : Declaration} {c : Compiler σ} {d : Definition σ} : c.definition? s = some d →
      d.status = .declared decl → Makes s depth decl c c
  /-- The parameters are bound, the host builds the body, and it is lowered. -/
  | now {depth : Nat} {decl : Declaration} {c bound ready done : Compiler σ} {d : Definition σ}
      {params : List (Variable × Arg)} {body : Expr} : c.definition? s = some d → d.status = .undeclared →
      (s.params.mapM bindParam).run.run (c.withStatus s .declaring) = (.ok params, bound) →
      ((d.body s (params.map (·.2))).run (declare depth)).run.run bound = some (.ok body, ready) →
      ready.conclude s (params.map (·.1)) (.ok body) = (.ok decl, done) →
      Makes s (depth + 1) decl c (done.withStatus s (.declared decl))

theorem declare_eq_ok_iff {depth : Nat} {decl : Declaration} :
    (declare depth s).run.run c = some (.ok decl, c₁) ↔ Makes s depth decl c c₁ := by
  constructor
  · intro hrun
    cases depth with
    | zero =>
      rw [declare] at hrun
      obtain ⟨d, hd, ⟨hstatus, rfl⟩ | ⟨-, done, hbuild, -⟩⟩ := declareBy_eq_ok_iff.1 hrun
      · exact .before hd hstatus
      · cases hbuild
    | succ depth =>
      rw [declare] at hrun
      obtain ⟨d, hd, ⟨hstatus, rfl⟩ | ⟨hstatus, done, hbuild, rfl⟩⟩ := declareBy_eq_ok_iff.1 hrun
      · exact .before hd hstatus
      obtain ⟨params, bound, body, ready, hparams, hbody, hend⟩ := build_eq_ok_iff.1 hbuild
      rw [(definition?_eq_some hd).2] at hparams hbody hend
      exact .now hd hstatus hparams hbody hend
  · intro hmakes
    cases hmakes with
    | @before depth decl c d hd hstatus =>
      cases depth with
      | zero =>
        rw [declare]
        exact declareBy_eq_ok_iff.2 ⟨d, hd, .inl ⟨hstatus, rfl⟩⟩
      | succ depth =>
        rw [declare]
        exact declareBy_eq_ok_iff.2 ⟨d, hd, .inl ⟨hstatus, rfl⟩⟩
    | @now depth decl c bound ready done d params body hd hstatus hparams hbody hend =>
      obtain ⟨-, rfl⟩ := definition?_eq_some hd
      rw [declare]
      exact declareBy_eq_ok_iff.2 ⟨d, hd, .inr ⟨hstatus, done,
        build_eq_ok_iff.2 ⟨params, bound, body, ready, hparams, hbody, hend⟩, rfl⟩⟩

/-- Where the first compiler makes a declaration, the second one makes the same. -/
theorem Twins.declare (h : Twins alike o c c') {depth : Nat} {decl : Declaration}
    (hrun : (declare depth s).run.run c = some (.ok decl, c₁)) (havailable : c₁.graph.Available o.version) :
    ∃ c₁', (Compiler.declare depth s).run.run c' = some (.ok decl, c₁') ∧ Twins alike o c₁ c₁' := by
  cases declare_eq_ok_iff.1 hrun with
  | before hd hstatus =>
    obtain ⟨d', hd', hcorresponds⟩ := h.exists_definition hd
    exact ⟨c', declare_eq_ok_iff.2 (.before hd' (hcorresponds.status.trans hstatus)), h⟩
  | now hd hstatus hparams hbody hend =>
    obtain ⟨d', hd', hcorresponds⟩ := h.exists_definition hd
    obtain ⟨bound', hparams', hbound⟩ :=
      shared_bindParams s.params (h.withStatus s .declaring) hparams fun e he => by cases he
    obtain ⟨ready', hbody', hready⟩ := hbound.run (hcorresponds.body s _) hbody
    obtain ⟨done', hend', hdone⟩ := hready.conclude hend havailable
    exact ⟨_, declare_eq_ok_iff.2 (.now hd' (hcorresponds.status.trans hstatus) hparams' hbody' hend'),
      hdone.withStatus s (.declared decl)⟩

/-! ### Compilations -/

/-- The subroutines that wait are declared, in so many rounds at most. -/
inductive Empties (depth : Nat) : (rounds : Nat) → Compiler σ → Compiler σ → Prop
  | nothing {rounds : Nat} {c : Compiler σ} : c.pending = [] → Empties depth rounds c c
  | next {rounds : Nat} {c mid c' : Compiler σ} {s : Subroutine} {rest : List Subroutine} {decl : Declaration} :
      c.pending = s :: rest → (declare depth s).run.run { c with pending := rest } = some (.ok decl, mid) →
      Empties depth rounds mid c' → Empties depth (rounds + 1) c c'

theorem declarePending_eq_ok_iff {depth rounds : Nat} :
    (declarePending depth rounds).run.run c = some (.ok (), c₁) ↔ Empties depth rounds c c₁ := by
  constructor
  · intro hrun
    induction rounds generalizing c with
    | zero =>
      cases hpending : c.pending with
      | nil =>
        rw [declarePending_nil _ _ hpending] at hrun
        cases hrun
        exact .nothing hpending
      | cons s rest =>
        rw [Compiler.declarePending, Declaring.run_bind, Steady.run_get] at hrun
        simp only [hpending] at hrun
        cases hrun
    | succ rounds ih =>
      cases hpending : c.pending with
      | nil =>
        rw [declarePending_nil _ _ hpending] at hrun
        cases hrun
        exact .nothing hpending
      | cons s rest =>
        rw [declarePending_cons _ _ hpending] at hrun
        rcases hdeclare : (Compiler.declare depth s).run.run { c with pending := rest } with _ | ⟨e | decl, mid⟩
        · rw [hdeclare] at hrun
          cases hrun
        · rw [hdeclare] at hrun
          cases hrun
        · rw [hdeclare] at hrun
          exact .next hpending hdeclare (ih hrun)
  · intro hempties
    induction hempties with
    | nothing hpending => exact declarePending_nil _ _ hpending
    | next hpending hdeclare _ ih =>
      rw [declarePending_cons _ _ hpending, hdeclare]
      exact ih

/-- Both declare the same subroutines that wait. -/
theorem Twins.empties (h : Twins alike o c c') (hc : Abides c c) {depth rounds : Nat}
    (hempties : Empties depth rounds c c₁)
    (havailable : c₁.graph.Available o.version) : ∃ c₁', Empties depth rounds c' c₁' ∧ Twins alike o c₁ c₁' := by
  induction hempties generalizing c' with
  | nothing hpending => exact ⟨c', .nothing (h.pending.trans hpending), h⟩
  | @next rounds c mid c₁ s rest decl hpending hdeclare hrest ih =>
    have htaken : Twins alike o { c with pending := rest } { c' with pending := rest } := { h with pending := rfl }
    have hbegun := enduring_abides.stays (enduring_abides.pending rest hc)
    have hmid := (safe_declare enduring_abides depth s).holds hbegun hdeclare
    have hend := (safe_declarePending enduring_abides depth rounds).holds (enduring_abides.stays hmid)
      (declarePending_eq_ok_iff.2 hrest)
    obtain ⟨mid', hdeclare', hmid'⟩ := htaken.declare hdeclare (havailable.of_prefix hend.code)
    obtain ⟨c₁', hrest', h'⟩ := ih hmid' (enduring_abides.stays hmid) havailable
    exact ⟨c₁', .next (h.pending.trans hpending) hdeclare' hrest', h'⟩

/-- Where the first compiler compiles a main program, the second one compiles it to the same, but for the options. -/
theorem Twins.compile (h : Twins alike o c c') (hc : Abides c c) {limit : Nat} {root : Expr} {compilation : Compilation}
    (hrun : (compile limit root).run.run c = some (.ok compilation, c₁)) (havailable : c₁.graph.Available o.version) :
    ∃ c₁', (Compiler.compile limit root).run.run c' = some (.ok { compilation with options := o }, c₁') ∧
      Twins alike o c₁ c₁' := by
  obtain ⟨main, lowered, hlower, hpending, rfl⟩ := Moment.compile_eq_ok hrun
  have hcurrent : Twins alike o { c with current := none } { c' with current := none } := { h with current := rfl }
  have hlowered := enduring_abides.lower (enduring_abides.stays (enduring_abides.current none hc)) hlower
    (Moment.advances_lower hlower)
  have hend := (safe_declarePending enduring_abides limit limit).holds (enduring_abides.stays hlowered) hpending
  obtain ⟨lowered', hlower', hlowered'⟩ := hcurrent.lower hlower (havailable.of_prefix hend.code)
  obtain ⟨c₁', hempties', h'⟩ := hlowered'.empties (enduring_abides.stays hlowered)
    (declarePending_eq_ok_iff.1 hpending)
    havailable
  refine ⟨c₁', ?_, h'⟩
  rw [Moment.run_compile]
  simp only [hlower', declarePending_eq_ok_iff.2 hempties', Option.map_some, Except.map, h'.options, h'.graph,
    h'.declarations]

end Compiler

end ScratchMachine
