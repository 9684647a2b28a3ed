import ScratchMachine.Proofs.Contexts
import ScratchMachine.Proofs.Twins

/-!
# Hosts that do not look at numbers

Most hosts take the variables and fragments that they get as they are: what they build does not depend on the numbers of
the slots and blocks in them.  Two compilers that have handed out different slots and made different blocks, but otherwise
resemble each other, then answer such a host alike, as long as none of them runs out of slots.

* `Expr.Akin`: two expressions that differ in their numbers only.
* `Builder.Akin`, `Body.Blind`: a host that does the same whatever the numbers are.
* `Compiler.Akin`: two compilers that differ in their slots and blocks only.
* `Compiler.concurs_newVariable`, `Compiler.Akin.lower` and so on: they answer alike.
-/

namespace ScratchMachine

open Fallible

/-! ### Trees -/

/-- No number is told from another. -/
def nought (_ : UInt64) : UInt64 := 0

/-- The expressions differ in their numbers only. -/
def Expr.Akin (e e' : Expr) : Prop := e'.renumber nought = e.renumber nought

/-- The locations differ in their numbers only. -/
def Location.Akin (location location' : Location) : Prop := location'.renumber nought = location.renumber nought

/-- The variables differ in their numbers only. -/
def Variable.Akin (v v' : Variable) : Prop := v'.renumber nought = v.renumber nought

/-- The arguments differ in their numbers only. -/
def Arg.Akin (a a' : Arg) : Prop := a'.renumber nought = a.renumber nought

/-- The same request, but for the numbers in an expression that computes the slot. -/
inductive SlotRequest.Akin : SlotRequest → SlotRequest → Prop
  | pool : Akin .pool .pool
  | fixed (id : Int) : Akin (.fixed id) (.fixed id)
  | computed {index index' : Expr} : index.Akin index' → Akin (.computed index) (.computed index')

namespace Expr.Akin

variable {e e' : Expr} {es es' : List Expr}

theorem refl (e : Expr) : e.Akin e := rfl

theorem type_eq (h : e.Akin e') : e'.type = e.type := by
  have htype := congrArg Expr.type h
  rwa [type_renumber, type_renumber] at htype

theorem alwaysReturns_eq (h : e.Akin e') : e'.alwaysReturns = e.alwaysReturns := by
  have hreturns := congrArg Expr.alwaysReturns h
  rwa [alwaysReturns_renumber, alwaysReturns_renumber] at hreturns

theorem all (h : List.Forall₂ Expr.Akin es es') : renumberAll nought es' = renumberAll nought es := by
  induction h with
  | nil => rfl
  | cons he _ ih => rw [renumberAll, renumberAll, ih, he]

theorem seq (h : List.Forall₂ Expr.Akin es es') : (Expr.seq es).Akin (.seq es') := by
  rw [Expr.Akin, renumber, renumber, all h]

theorem ret (h : e.Akin e') : (Expr.ret e).Akin (.ret e') := by
  rw [Expr.Akin, renumber, renumber, h]

end Expr.Akin

namespace Variable.Akin

variable {v v' : Variable}

theorem aliasOf_eq (h : v.Akin v') : v'.aliasOf = v.aliasOf := by
  have halias := congrArg Variable.aliasOf h
  rwa [aliasOf_renumber, aliasOf_renumber] at halias

theorem type_eq (h : v.Akin v') : v'.type = v.type := by
  have htype := congrArg Variable.type h
  rwa [type_renumber, type_renumber] at htype

theorem location (h : v.Akin v') : v.location.Akin v'.location := by
  have hlocation := congrArg Variable.location h
  rwa [location_renumber, location_renumber] at hlocation

theorem load (h : v.Akin v') : v.load.Akin v'.load := by
  rw [Expr.Akin, ← load_renumber, ← load_renumber, h]

theorem mk {location location' : Location} (type : ValueType) (h : location.Akin location')
    (target : Option ValueType) : Variable.Akin ⟨type, location, target⟩ ⟨type, location', target⟩ := by
  rw [Variable.Akin, renumber, renumber, h]

end Variable.Akin

theorem Arg.Akin.value {e e' : Expr} (h : e.Akin e') : (Arg.value e).Akin (.value e') := by
  rw [Arg.Akin, renumber, renumber, h]

theorem Arg.Akin.ref {v v' : Variable} (h : v.Akin v') : (Arg.ref v).Akin (.ref v') := by
  rw [Arg.Akin, renumber, renumber, h]

/-! ### Errors -/

/-- The errors differ in their numbers only. -/
def CompileError.Akin (e e' : CompileError) : Prop := e'.blurred = e.blurred

/-- The answers differ in their numbers only, and so do the errors. -/
abbrev AnswersAlike {α α' : Type} (A : α → α' → Prop) : Except CompileError α → Except CompileError α' → Prop :=
  SameAnswer CompileError.Akin A

/-- Whether the error says that there is no slot, or that the one that was asked for has been handed out. -/
def CompileError.isShortage : CompileError → Bool
  | noFreeSlot _ | slotFromPool _ => true
  | _ => false

/-- Whether a slot was lacking. -/
def lacksSlot {α : Type} : Except CompileError α → Bool
  | .ok _ => false
  | .error e => e.isShortage

/-- What one allocator grants, so does another with as many slots, though not the same slot, unless one of them lacks
it. -/
theorem SlotAllocator.take_akin {r r' : SlotAllocator} (hcapacity : r'.capacity = r.capacity)
    {request request' : SlotRequest} (hrequest : request.Akin request')
    (hshort : lacksSlot (r.take request) = false) (hshort' : lacksSlot (r'.take request') = false) :
    AnswersAlike (fun granted granted' => granted.1.Akin granted'.1) (r.take request) (r'.take request') := by
  cases hrequest with
  | pool =>
    simp only [take, takePooled] at hshort hshort' ⊢
    split at hshort
    · split at hshort'
      · exact .ok rfl
      · cases hshort'
    · cases hshort
  | fixed id =>
    simp only [take, takeFixed, hcapacity] at hshort hshort' ⊢
    split at hshort
    · rename_i hid
      rw [if_pos hid] at hshort' ⊢
      rw [if_pos hid]
      by_cases hpool : UInt64.ofNat id.toNat ∈ r.pooled
      · rw [if_pos hpool] at hshort
        cases hshort
      · by_cases hpool' : UInt64.ofNat id.toNat ∈ r'.pooled
        · rw [if_pos hpool'] at hshort'
          cases hshort'
        · rw [if_neg hpool, if_neg hpool']
          exact .ok rfl
    · rename_i hid
      rw [if_neg hid, if_neg hid]
      exact .error rfl
  | @computed index index' hindex =>
    simp only [take, takeComputed, hindex.type_eq]
    split
    · exact .ok (by rw [Location.Akin, Location.renumber, Location.renumber, hindex])
    · exact .error rfl

/-! ### Hosts -/

/-- The declarations are of the same subroutine and differ in their numbers only, those of the blocks included. -/
structure Declaration.Akin (d d' : Declaration) : Prop where
  subroutine : d'.subroutine = d.subroutine
  body : d.body.Akin d'.body
  holders : List.Forall₂ Variable.Akin d.holders d'.holders

/-- The second host asks for the same as the first and ends in the same way, if it is told the same but for numbers. -/
inductive Builder.Akin {σ : Type} : Builder σ → Builder σ → Prop
  | done {body body' : Expr} : body.Akin body' → Akin (.done body) (.done body')
  | fail {e e' : CompileError} : CompileError.Akin e e' → Akin (.fail e) (.fail e')
  | newVariable (type : ValueType) {request request' : SlotRequest} {target target' : Option Variable}
      {next next' : Except CompileError Variable → Builder σ} : request.Akin request' →
      Option.Rel Variable.Akin target target' →
      (∀ answer answer', AnswersAlike Variable.Akin answer answer' → Akin (next answer) (next' answer')) →
      Akin (.newVariable type request target next) (.newVariable type request' target' next')
  | define (name : String) (params : List Param) (returns : ValueType) {body body' : Body σ}
      {next next' : Subroutine → Builder σ} :
      (∀ s handles handles', List.Forall₂ Arg.Akin handles handles' →
        Akin (body s handles) (body' s handles')) → (∀ s, Akin (next s) (next' s)) →
      Akin (.define name params returns body next) (.define name params returns body' next')
  | lookup (name : String) {next next' : Option Subroutine → Builder σ} :
      (∀ answer, Akin (next answer) (next' answer)) → Akin (.lookup name next) (.lookup name next')
  | declare (s : Subroutine) {next next' : Except CompileError Declaration → Builder σ} :
      (∀ answer answer', AnswersAlike Declaration.Akin answer answer' →
        Akin (next answer) (next' answer')) → Akin (.declare s next) (.declare s next')
  | lower {e e' : Expr} {next next' : Except CompileError Fragment → Builder σ} : e.Akin e' →
      (∀ answer answer', AnswersAlike (fun _ _ => True) answer answer' → Akin (next answer) (next' answer')) →
      Akin (.lower e next) (.lower e' next')
  | inspect {next next' : Options → BlockGraph → Builder σ} :
      (∀ options graph graph', Akin (next options graph) (next' options graph')) →
      Akin (.inspect next) (.inspect next')
  | getState {next next' : σ → Builder σ} : (∀ state, Akin (next state) (next' state)) →
      Akin (.getState next) (.getState next')
  | setState (state : σ) {next next' : Builder σ} : Akin next next' →
      Akin (.setState state next) (.setState state next')

/-- The body is built in the same way whatever the numbers are. -/
def Body.Blind {σ : Type} (body : Body σ) : Prop :=
  ∀ s handles handles', List.Forall₂ Arg.Akin handles handles' → (body s handles).Akin (body s handles')

/-! ### Compilers -/

/-- The declarations have come equally far, and differ in their numbers only. -/
inductive Status.Akin : Status → Status → Prop
  | undeclared : Akin .undeclared .undeclared
  | declaring : Akin .declaring .declaring
  | declared {d d' : Declaration} : d.Akin d' → Akin (.declared d) (.declared d')

theorem Status.Akin.refl (status : Status) : status.Akin status := by
  cases status with
  | undeclared => exact .undeclared
  | declaring => exact .declaring
  | declared d => exact .declared ⟨rfl, rfl, List.forall₂_same.2 fun _ _ => rfl⟩

/-- Whether the declaration is still to be made. -/
def Status.isUndeclared : Status → Bool
  | undeclared => true
  | _ => false

/-- Two definitions of one subroutine, by hosts that are akin. -/
structure Definition.Akin {σ : Type} (d d' : Definition σ) : Prop where
  handle : d'.handle = d.handle
  status : d.status.Akin d'.status
  body : ∀ s handles handles', List.Forall₂ Arg.Akin handles handles' →
    (d.body s handles).Akin (d'.body s handles')

namespace Compiler

variable {σ α α' β β' : Type} {waiting : Prop} {c c' : Compiler σ}

/-- The compilers differ in the slots that they have handed out and in their blocks, and in nothing else but numbers.  The
subroutines that wait are the same if `waiting`. -/
structure Akin (waiting : Prop) (c c' : Compiler σ) : Prop where
  key : c'.key = c.key
  options : c'.options = c.options
  capacity : c'.slots.capacity = c.slots.capacity
  definitions : List.Forall₂ Definition.Akin c.definitions c'.definitions
  pending : waiting → c'.pending = c.pending
  current : c'.current = c.current
  host : c'.host = c.host

namespace Akin

theorem handles (h : Akin waiting c c') :
    c'.definitions.map (·.handle) = c.definitions.map (·.handle) := by
  have hdefinitions := h.definitions
  generalize c.definitions = l at hdefinitions ⊢
  generalize c'.definitions = l' at hdefinitions ⊢
  induction hdefinitions with
  | nil => rfl
  | cons hd _ ih => rw [List.map_cons, List.map_cons, ih, hd.handle]

theorem comparable (h : Akin waiting c c') : c.Comparable c' := ⟨by rw [h.options], h.current, h.handles⟩

/-- Both know a subroutine, or neither does. -/
theorem definition? (h : Akin waiting c c') (s : Subroutine) :
    Option.Rel Definition.Akin (c.definition? s) (c'.definition? s) := by
  unfold Compiler.definition?
  have hplace := getElem?_forall₂ h.definitions s.id.number.toNat
  generalize c.definitions[s.id.number.toNat]? = x at hplace ⊢
  generalize c'.definitions[s.id.number.toNat]? = x' at hplace ⊢
  cases hplace with
  | none => exact .none
  | @some d d' hd =>
    rw [Option.filter_some, Option.filter_some, hd.handle]
    split
    · exact .some hd
    · exact .none

theorem lookup (h : Akin waiting c c') (name : String) : c'.lookup name = c.lookup name := by
  have hlookup : ∀ l : List (Definition σ), (l.find? (·.handle.name = name)).map (·.handle) =
      (l.map (·.handle)).find? (·.name = name) := fun l => by rw [List.find?_map, Function.comp_def]
  rw [Compiler.lookup, Compiler.lookup, hlookup, hlookup, h.handles]

theorem withStatus (h : Akin waiting c c') (s : Subroutine) {status status' : Status}
    (hstatus : status.Akin status') : Akin waiting (c.withStatus s status) (c'.withStatus s status') := by
  have hmodify : ∀ {l l' : List (Definition σ)} (i : Nat), List.Forall₂ Definition.Akin l l' →
      List.Forall₂ Definition.Akin (l.modify i fun d => { d with status })
        (l'.modify i fun d => { d with status := status' }) := by
    intro l l' i hl
    induction hl generalizing i with
    | nil =>
      rw [List.modify_nil, List.modify_nil]
      exact .nil
    | cons hd hrest ih =>
      cases i with
      | zero =>
        rw [List.modify_zero_cons, List.modify_zero_cons]
        exact .cons ⟨hd.handle, hstatus, hd.body⟩ hrest
      | succ i =>
        rw [List.modify_succ_cons, List.modify_succ_cons]
        exact .cons hd (ih i)
  exact { h with definitions := hmodify _ h.definitions }

/-- Both define a subroutine under the same handle. -/
theorem define (h : Akin waiting c c') (name : String) (params : List Param) (returns : ValueType)
    {body body' : Body σ} (hbody : ∀ s handles handles', List.Forall₂ Arg.Akin handles handles' →
      (body s handles).Akin (body' s handles')) :
    (c'.define name params returns body').1 = (c.define name params returns body).1 ∧
      Akin waiting (c.define name params returns body).2 (c'.define name params returns body').2 := by
  have hhandle : (c'.define name params returns body').1 = (c.define name params returns body).1 := by
    show Subroutine.mk c'.key ⟨UInt32.ofNat c'.definitions.length⟩ name params returns = _
    rw [h.key, ← h.definitions.length_eq]
    rfl
  exact ⟨hhandle, { h with definitions := List.rel_append h.definitions (.cons ⟨hhandle, .undeclared, hbody⟩ .nil) }⟩

theorem declarations (h : Akin waiting c c') :
    c'.declarations.map (·.subroutine) = c.declarations.map (·.subroutine) := by
  have hdefinitions := h.definitions
  unfold Compiler.declarations
  generalize c.definitions = l at hdefinitions ⊢
  generalize c'.definitions = l' at hdefinitions ⊢
  induction hdefinitions with
  | nil => rfl
  | @cons d d' l l' hd _ ih =>
    rw [List.filterMap_cons, List.filterMap_cons]
    have hstatus := hd.status
    generalize d.status = status at hstatus
    generalize d'.status = status' at hstatus
    cases hstatus with
    | undeclared | declaring => exact ih
    | declared hdecl =>
      simp only [List.map_cons, ih, hdecl.subroutine]

/-- Both have come to the same end. -/
theorem record (h : Akin waiting c c') (s : Subroutine) {answer answer' : Except CompileError Declaration}
    (hanswer : AnswersAlike Declaration.Akin answer answer') :
    Akin waiting (c.record s answer) (c'.record s answer') := by
  cases hanswer with
  | ok hdecl => exact h.withStatus s (.declared hdecl)
  | error _ => exact h.withStatus s .undeclared

end Akin

/-! ### Requests for variables -/

/-- Two actions answer alike, unless one of them lacks a slot. -/
def Concurs (waiting : Prop) (A : α → α' → Prop) (x : Compiling σ α) (x' : Compiling σ α') : Prop :=
  ∀ c c', Akin waiting c c' → lacksSlot (x.run.run c).1 = false → lacksSlot (x'.run.run c').1 = false →
    SameEnd (Akin waiting) CompileError.Akin A (x.run.run c) (x'.run.run c')

section Concurs

variable {A : α → α' → Prop} {B : β → β' → Prop}

theorem concurs_pure {a : α} {a' : α'} (h : A a a') : Concurs (σ := σ) waiting A (pure a) (pure a') :=
  fun _ _ hc _ _ => ⟨.ok h, hc⟩

theorem concurs_throw {e e' : CompileError} (h : e.Akin e') : Concurs (σ := σ) waiting A (throw e) (throw e') :=
  fun _ _ hc _ _ => ⟨.error h, hc⟩

theorem Concurs.bind {x : Compiling σ α} {x' : Compiling σ α'} {k : α → Compiling σ β} {k' : α' → Compiling σ β'}
    (hx : Concurs waiting A x x') (hk : ∀ a a', A a a' → Concurs waiting B (k a) (k' a')) :
    Concurs waiting B (x >>= k) (x' >>= k') := by
  intro c c' hc
  have hfirst := hx c c' hc
  rw [run_bind, run_bind]
  revert hfirst
  rcases x.run.run c with ⟨e | a, t⟩ <;> rcases x'.run.run c' with ⟨e' | a', t'⟩ <;> intro hfirst hshort hshort'
  · obtain ⟨hanswer, hstate⟩ := hfirst hshort hshort'
    cases hanswer with
    | error he => exact ⟨.error he, hstate⟩
  · obtain ⟨hanswer, -⟩ := hfirst hshort rfl
    cases hanswer
  · obtain ⟨hanswer, -⟩ := hfirst rfl hshort'
    cases hanswer
  · obtain ⟨hanswer, hstate⟩ := hfirst rfl rfl
    cases hanswer with
    | ok ha => exact hk a a' ha t t' hstate hshort hshort'

end Concurs

/-- Both get a slot, though not the same one. -/
theorem concurs_newLocation {request request' : SlotRequest} (hrequest : request.Akin request') :
    Concurs (σ := σ) waiting Location.Akin (newLocation request) (newLocation request') := by
  intro c c' h hshort hshort'
  rw [run_newLocation] at hshort hshort' ⊢
  rw [run_newLocation]
  have htaken := SlotAllocator.take_akin h.capacity hrequest
  revert hshort hshort' htaken
  rcases htake : c.slots.take request with e | ⟨location, slots⟩ <;>
    rcases htake' : c'.slots.take request' with e' | ⟨location', slots'⟩ <;> intro hshort hshort' htaken
  · cases htaken hshort hshort' with
    | error he => exact ⟨.error he, h⟩
  · cases htaken hshort rfl
  · cases htaken rfl hshort'
  · cases htaken rfl rfl with
    | ok hlocation =>
      have hcapacity : slots'.capacity = slots.capacity := by
        rw [(SlotAllocator.take_grows htake').capacity, (SlotAllocator.take_grows htake).capacity, h.capacity]
      exact ⟨.ok hlocation, { h with capacity := hcapacity }⟩

theorem concurs_newVariable (type : ValueType) {request request' : SlotRequest} (hrequest : request.Akin request')
    {target target' : Option Variable} (htarget : Option.Rel Variable.Akin target target') :
    Concurs (σ := σ) waiting Variable.Akin (newVariable type request target)
      (newVariable type request' target') := by
  unfold newVariable
  cases htarget with
  | none => exact (concurs_newLocation hrequest).bind fun location location' h => concurs_pure (.mk type h none)
  | @some target target' h =>
    have halias : target'.isAlias = target.isAlias := by rw [Variable.isAlias, Variable.isAlias, h.aliasOf_eq]
    cases hrequest with
    | pool =>
      dsimp only
      rw [halias, h.type_eq]
      split
      · exact (concurs_throw (A := fun _ _ => True) rfl).bind fun _ _ _ => concurs_pure (.mk type h.location _)
      · exact concurs_pure (.mk type h.location _)
    | fixed => exact concurs_throw rfl
    | computed => exact concurs_throw rfl

/-- What holds a parameter, and its handle, are the same but for numbers. -/
def BindsAlike (b b' : Variable × Arg) : Prop := b.1.Akin b'.1 ∧ b.2.Akin b'.2

theorem concurs_bindParams (params : List Param) :
    Concurs (σ := σ) waiting (List.Forall₂ BindsAlike) (params.mapM bindParam) (params.mapM bindParam) := by
  have hparam : ∀ p, Concurs (σ := σ) waiting BindsAlike (bindParam p) (bindParam p) := by
    intro p
    unfold bindParam
    split
    · exact (concurs_newVariable _ .pool .none).bind fun v v' hv => concurs_pure ⟨hv, .value hv.load⟩
    · refine (concurs_newVariable _ .pool .none).bind fun holder holder' hholder => ?_
      refine (concurs_newVariable _ (.computed hholder.load) .none).bind fun target target' htarget => ?_
      rw [htarget.type_eq]
      exact (concurs_newVariable _ .pool (.some htarget)).bind fun v v' hv => concurs_pure ⟨hholder, .ref hv⟩
  induction params with
  | nil => exact concurs_pure .nil
  | cons p params ih =>
    rw [List.mapM_cons]
    exact (hparam p).bind fun _ _ hp => ih.bind fun _ _ hps => concurs_pure (.cons hp hps)

/-! ### Requests for code -/

/-- To let a subroutine wait that has not been declared. -/
theorem enqueue_eq {s : Subroutine} {d : Definition σ} (hd : c.definition? s = some d) :
    ((enqueue s).run.run c).2 =
      { c with
        pending := if d.status.isUndeclared && !c.pending.any s.sameId then c.pending ++ [s] else c.pending } := by
  rw [run_enqueue, hd, Option.map_some]
  rcases d.status with _ | _ | decl
  · show (if c.pending.any s.sameId then c else _) = _
    cases hany : c.pending.any s.sameId <;> simp [Status.isUndeclared]
  · rfl
  · rfl

/-- Comparable compilers have not declared the same subroutines, of which the same wait if `waiting`. -/
structure Waits (waiting : Prop) (c c' : Compiler σ) : Prop where
  comparable : c.Comparable c'
  pending : waiting → c'.pending = c.pending
  undeclared : ∀ s, (c'.definition? s).map (·.status.isUndeclared) = (c.definition? s).map (·.status.isUndeclared)

theorem common_waits : Common (Waits waiting (σ := σ)) where
  comparable h := h.comparable
  graph _ _ h := ⟨⟨h.comparable.version, h.comparable.current, h.comparable.handles⟩, h.pending, h.undeclared⟩
  waits := by
    rintro c c' s ⟨d, hd⟩ ⟨d', hd'⟩ h
    have hundeclared := h.undeclared s
    rw [hd, hd', Option.map_some, Option.map_some, Option.some.injEq] at hundeclared
    rw [enqueue_eq hd, enqueue_eq hd', hundeclared]
    refine ⟨⟨h.comparable.version, h.comparable.current, h.comparable.handles⟩, fun hwaiting => ?_, h.undeclared⟩
    dsimp only
    rw [h.pending hwaiting]

theorem Akin.waits (h : Akin waiting c c') : Waits waiting c.bare c' := by
  refine ⟨⟨h.comparable.version, h.current, h.handles⟩, h.pending, fun s => ?_⟩
  have hdefinition := h.definition? s
  show (c'.definition? s).map _ = (c.definition? s).map _
  generalize c.definition? s = x at hdefinition ⊢
  generalize c'.definition? s = x' at hdefinition ⊢
  cases hdefinition with
  | none => rfl
  | @some d d' hd =>
    have hstatus := hd.status
    rw [Option.map_some, Option.map_some]
    generalize d.status = status at hstatus ⊢
    generalize d'.status = status' at hstatus ⊢
    cases hstatus <;> rfl

/-- Both lower an expression, or refuse it. -/
theorem Akin.lower (h : Akin waiting c c') {e e' : Expr} (he : e.Akin e') :
    SameEnd (Akin waiting) CompileError.Akin (fun _ _ => True) ((Compiler.lower e).run.run c)
      ((Compiler.lower e').run.run c') := by
  -- each of them is compared with the first one without its blocks, where all numbers are the same
  have hself : Waits waiting c.bare c := ⟨⟨rfl, rfl, rfl⟩, fun _ => rfl, fun _ => rfl⟩
  have hfirst := lower_parallel common_waits nought c.graph.size e c.bare c ⟨hself, BlockGraph.endsWith_empty _⟩
  have hsecond := lower_parallel common_waits nought c'.graph.size e' c.bare c' ⟨h.waits, BlockGraph.endsWith_empty _⟩
  rw [he] at hsecond
  rcases hrun : (Compiler.lower e).run.run c with ⟨answer, d⟩
  rcases hrun' : (Compiler.lower e').run.run c' with ⟨answer', d'⟩
  rw [hrun] at hfirst
  rw [hrun'] at hsecond
  refine ⟨?_, ?_⟩
  · have hanswer := hfirst.answer
    have hanswer' := hsecond.answer
    dsimp only at hanswer hanswer' ⊢
    generalize ((Compiler.lower (e.renumber nought)).run.run c.bare).1 = answer₀ at hanswer hanswer'
    cases hanswer with
    | ok =>
      cases hanswer' with
      | ok => exact .ok trivial
    | error herror =>
      cases hanswer' with
      | error herror' => exact .error (herror'.1.trans herror.1.symm)
  · rw [(Moment.advances_lower hrun).rest, (Moment.advances_lower hrun').rest]
    have hpending := hfirst.state.common.pending
    have hpending' := hsecond.state.common.pending
    exact { h with pending := fun hwaiting => (hpending' hwaiting).trans (hpending hwaiting).symm }

/-- The code of a subroutine is the same but for numbers. -/
theorem akin_withReturn (s : Subroutine) {body body' : Expr} (h : body.Akin body') :
    (withReturn s body).Akin (withReturn s body') := by
  unfold withReturn
  rw [h.alwaysReturns_eq]
  split
  · exact h
  · split
    · exact .seq (.cons h (.cons (.refl _) .nil))
    · exact .ret h

theorem answersAlike_checkBody (s : Subroutine) {body body' : Expr} (h : body.Akin body') :
    AnswersAlike (fun _ _ => True) (checkBody s body) (checkBody s body') := by
  unfold checkBody
  rw [h.alwaysReturns_eq, h.type_eq]
  split
  · exact .ok trivial
  · exact .error rfl

theorem answersAlike_storeTop {v v' : Variable} (h : v.Akin v') :
    AnswersAlike Expr.Akin v.storeTop v'.storeTop := by
  have hslot := congrArg Variable.ownSlot? h
  rw [Variable.ownSlot?_renumber, Variable.ownSlot?_renumber] at hslot
  unfold Variable.storeTop
  rcases hv : v.ownSlot? with _ | slot <;> rcases hv' : v'.ownSlot? with _ | slot' <;> rw [hv, hv'] at hslot
  · exact .error rfl
  · cases hslot
  · cases hslot
  · refine .ok ?_
    rw [Expr.Akin, Expr.ofOp, Expr.ofOp, Expr.renumber, Expr.renumber]
    rfl

theorem answersAlike_prologue {holders holders' : List Variable}
    (hholders : List.Forall₂ Variable.Akin holders holders') {tail tail' : Expr} (htail : tail.Akin tail') :
    AnswersAlike Expr.Akin (prologue holders tail) (prologue holders' tail') := by
  unfold prologue
  have hstores := SameAnswer.mapM (List.rel_reverse hholders) fun _ _ => answersAlike_storeTop
  exact hstores.bind fun stores stores' hstores => .ok (.seq (List.rel_append hstores (.cons htail .nil)))

/-- Both declare the subroutine whose body has been built, or refuse it. -/
theorem Akin.conclude (h : Akin waiting c c') (s : Subroutine) {holders holders' : List Variable}
    (hholders : List.Forall₂ Variable.Akin holders holders') {built built' : Except CompileError Expr}
    (hbuilt : AnswersAlike Expr.Akin built built') :
    SameEnd (Akin waiting) CompileError.Akin Declaration.Akin (c.conclude s holders built)
      (c'.conclude s holders' built') := by
  cases hbuilt with
  | error he => exact ⟨.error he, h⟩
  | @ok body body' hbody =>
    have hcode : AnswersAlike Expr.Akin (do checkBody s body; prologue holders (withReturn s body))
        (do checkBody s body'; prologue holders' (withReturn s body')) :=
      (answersAlike_checkBody s hbody).bind fun _ _ _ => answersAlike_prologue hholders (akin_withReturn s hbody)
    dsimp only [Compiler.conclude]
    generalize (do checkBody s body; prologue holders (withReturn s body) : Except _ Expr) = code at hcode ⊢
    generalize (do checkBody s body'; prologue holders' (withReturn s body') : Except _ Expr) = code' at hcode ⊢
    cases hcode with
    | error he => exact ⟨.error he, h⟩
    | @ok code code' hcode =>
      have hbegun : Akin waiting { c with current := some s } { c' with current := some s } :=
        { h with current := rfl }
      obtain ⟨hanswer, hstate⟩ := hbegun.lower hcode
      refine ⟨?_, { hstate with current := h.current }⟩
      dsimp only
      generalize ((Compiler.lower code).run.run { c with current := some s }).1 = answer at hanswer ⊢
      generalize ((Compiler.lower code').run.run { c' with current := some s }).1 = answer' at hanswer ⊢
      cases hanswer with
      | ok => exact .ok ⟨rfl, hbody, hholders⟩
      | error he => exact .error he

end Compiler

end ScratchMachine
