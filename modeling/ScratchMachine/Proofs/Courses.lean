import ScratchMachine.Compilation
import ScratchMachine.Proofs.Checking
import ScratchMachine.Proofs.Slots

/-!
# What hosts can do to a compiler

Hosts take part in declarations, and may ask for variables, subroutines, lowerings and further declarations in any
order.  A relation between states that is kept by each of these requests, and by the beginning and the end of a
declaration, is kept by all that hosts can do with them.

* `Compiler.Course`, `Compiler.Enduring`: such relations.
* `Compiler.safe_run`, `Compiler.safe_declare`, `Compiler.safe_compile`: what a builder does, a declaration, and
  a compilation.
* `Compiler.Reachable`: the compilers that a host can come to have.
-/

namespace ScratchMachine

open BlockGraph Fallible

/-! ### Outcomes of declaring -/

namespace Declaring

variable {σ α β : Type} {c : Compiler σ} {ok : α → Compiler σ → Prop} {failed : Compiler σ → Prop}

/-- From a state, the action succeeds with one property of its answer and of the state it leaves, or fails with
another of that state, or has no answer. -/
def Ensures (x : Declaring σ α) (c : Compiler σ) (ok : α → Compiler σ → Prop) (failed : Compiler σ → Prop) : Prop :=
  match x.run.run c with
  | some (.ok a, c') => ok a c'
  | some (.error _, c') => failed c'
  | none => True

theorem ensures_pure {a : α} (h : ok a c) : Ensures (pure a : Declaring σ α) c ok failed := h

theorem ensures_throw {e : CompileError} (h : failed c) : Ensures (throw e : Declaring σ α) c ok failed := h

theorem ensures_get {ok : Compiler σ → Compiler σ → Prop} (h : ok c c) :
    Ensures (get : Declaring σ (Compiler σ)) c ok failed := h

theorem ensures_any {x : Declaring σ α} (hok : ∀ a c', ok a c') (hfailed : ∀ c', failed c') : Ensures x c ok failed := by
  unfold Ensures
  split
  · exact hok _ _
  · exact hfailed _
  · trivial

theorem ensures_run {x : Declaring σ α} : Ensures x c (fun a c' => x.run.run c = some (.ok a, c')) fun _ => True := by
  unfold Ensures
  split
  · rename_i hx
    exact hx
  · trivial
  · trivial

theorem ensures_modify {f : Compiler σ → Compiler σ} {ok : Unit → Compiler σ → Prop} (h : ok () (f c)) :
    Ensures (modify f : Declaring σ Unit) c ok failed := h

theorem ensures_modifyGet {f : Compiler σ → α × Compiler σ} (h : ok (f c).1 (f c).2) :
    Ensures (modifyGet f : Declaring σ α) c ok failed := h

theorem ensures_tooDeep : Ensures (tooDeep : Declaring σ α) c ok failed := trivial

theorem ensures_perform {x : Compiling σ α} (h : Fallible.Ensures x c ok failed) :
    Ensures (perform x) c ok failed := by
  have hrun : (perform x).run.run c = some (x.run.run c) := rfl
  unfold Fallible.Ensures at h
  unfold Ensures
  rw [hrun]
  rcases hx : x.run.run c with ⟨e | a, c'⟩
  · rw [hx] at h
    exact h
  · rw [hx] at h
    exact h

theorem ensures_lift {x : Except CompileError α} (hok : ∀ a, x = .ok a → ok a c) (hfailed : failed c) :
    Ensures (liftM x : Declaring σ α) c ok failed := by
  cases x with
  | error e => exact hfailed
  | ok a => exact hok a rfl

theorem run_bind (x : Declaring σ α) (k : α → Declaring σ β) (c : Compiler σ) :
    (x >>= k).run.run c = match x.run.run c with
      | some (.ok a, c') => (k a).run.run c'
      | some (.error e, c') => some (.error e, c')
      | none => none := by
  show (x c).bind (fun p => ExceptT.bindCont k p.1 p.2) = match x c with
    | some (.ok a, c') => _
    | some (.error e, c') => _
    | none => none
  rcases x c with _ | ⟨e | a, c'⟩ <;> rfl

theorem run_attempt (x : Declaring σ α) (c : Compiler σ) :
    (attempt x).run.run c = (x.run.run c).map fun p => (.ok p.1, p.2) := by
  show (x c).bind (fun p => some ((Except.ok p.1 : Except CompileError (Except CompileError α)), p.2)) =
    (x c).map fun p => (.ok p.1, p.2)
  rcases x c with _ | p <;> rfl

theorem ensures_bind {x : Declaring σ α} {k : α → Declaring σ β} {ok : β → Compiler σ → Prop}
    (h : Ensures x c (fun a c' => Ensures (k a) c' ok failed) failed) : Ensures (x >>= k) c ok failed := by
  unfold Ensures at h ⊢
  rw [run_bind]
  rcases hx : x.run.run c with _ | ⟨e | a, c'⟩
  · trivial
  · rw [hx] at h
    exact h
  · rw [hx] at h
    exact h

theorem Ensures.imp {ok' : α → Compiler σ → Prop} {failed' : Compiler σ → Prop} {x : Declaring σ α}
    (h : Ensures x c ok failed) (hok : ∀ a c', ok a c' → ok' a c') (hfailed : ∀ c', failed c' → failed' c') :
    Ensures x c ok' failed' := by
  unfold Ensures at h ⊢
  rcases hx : x.run.run c with _ | ⟨e | a, c'⟩
  · trivial
  · rw [hx] at h
    exact hfailed c' h
  · rw [hx] at h
    exact hok a c' h

theorem ensures_attempt {x : Declaring σ α} {ok : Except CompileError α → Compiler σ → Prop}
    (h : Ensures x c (fun a c' => ok (.ok a) c') fun c' => ∀ e, ok (.error e) c') :
    Ensures (attempt x) c ok failed := by
  unfold Ensures at h ⊢
  rw [run_attempt]
  rcases hx : x.run.run c with _ | ⟨e | a, c'⟩
  · trivial
  · rw [hx] at h
    exact h e
  · rw [hx] at h
    exact h

theorem Ensures.of_ok {x : Declaring σ α} (h : Ensures x c ok failed) {a : α} {c' : Compiler σ}
    (hx : x.run.run c = some (.ok a, c')) : ok a c' := by
  rwa [Ensures, hx] at h

end Declaring

namespace Compiler

variable {σ α β : Type}

open Declaring

/-! ### Definitions -/

theorem definition?_eq_some {c : Compiler σ} {s : Subroutine} {d : Definition σ} (h : c.definition? s = some d) :
    c.definitions[s.id.number.toNat]? = some d ∧ d.handle = s := by
  unfold definition? at h
  obtain ⟨hget, hhandle⟩ := Option.filter_eq_some_iff.1 h
  exact ⟨hget, by simpa using hhandle⟩

/-- Blocks and handles that were there in one state still are in another. -/
structure Evolves (c c' : Compiler σ) : Prop where
  grows : Grows c.graph.size c.graph c'.graph
  handles : ∀ (i : Nat) (d : Definition σ), c.definitions[i]? = some d →
    ∃ d', c'.definitions[i]? = some d' ∧ d'.handle = d.handle

namespace Evolves

variable {c c' c'' : Compiler σ}

theorem refl (c : Compiler σ) : c.Evolves c := ⟨.refl _ _, fun _ d hd => ⟨d, hd, rfl⟩⟩

theorem trans (h : c.Evolves c') (h' : c'.Evolves c'') : c.Evolves c'' := by
  refine ⟨h.grows.trans (h'.grows.mono h.grows.extends'.size_le), fun i d hd => ?_⟩
  obtain ⟨d', hd', hhandle⟩ := h.handles i d hd
  obtain ⟨d'', hd'', hhandle'⟩ := h'.handles i d' hd'
  exact ⟨d'', hd'', hhandle'.trans hhandle⟩

theorem defines (h : c.Evolves c') (s : Subroutine) (hs : c.Defines s) : c'.Defines s := by
  obtain ⟨d, hd⟩ := hs
  obtain ⟨hget, rfl⟩ := definition?_eq_some hd
  obtain ⟨d', hd', hhandle⟩ := h.handles _ d hget
  refine ⟨d', ?_⟩
  rw [definition?, hd', Option.filter_some, if_pos (by simp [hhandle])]

theorem of_grows (hgrows : Grows c.graph.size c.graph c'.graph) (hdefs : c'.definitions = c.definitions) :
    c.Evolves c' := ⟨hgrows, fun _ d hd => ⟨d, by rwa [hdefs], rfl⟩⟩

end Evolves

theorem mem_declarations {c : Compiler σ} {decl : Declaration} :
    decl ∈ c.declarations ↔ ∃ (i : Nat) (d : Definition σ), c.definitions[i]? = some d ∧ d.status = .declared decl := by
  unfold declarations
  rw [List.mem_filterMap]
  constructor
  · rintro ⟨d, hd, hdecl⟩
    obtain ⟨i, hi⟩ := List.getElem?_of_mem hd
    split at hdecl
    · rename_i decl' hstatus
      cases hdecl
      exact ⟨i, d, hi, hstatus⟩
    · cases hdecl
  · rintro ⟨i, d, hd, hstatus⟩
    exact ⟨d, List.mem_of_getElem? hd, by rw [hstatus]⟩

theorem getElem?_define {c : Compiler σ} {name : String} {params : List Param} {returns : ValueType} {body : Body σ}
    {i : Nat} {d : Definition σ} (h : (c.define name params returns body).2.definitions[i]? = some d) :
    c.definitions[i]? = some d ∨ d.status = .undeclared := by
  rw [define, List.getElem?_append] at h
  split at h
  · exact .inl h
  · rw [List.getElem?_singleton] at h
    split at h
    · cases h
      exact .inr rfl
    · cases h

theorem mem_declarations_define {c : Compiler σ} {name : String} {params : List Param} {returns : ValueType}
    {body : Body σ} {decl : Declaration} (h : decl ∈ (c.define name params returns body).2.declarations) :
    decl ∈ c.declarations := by
  obtain ⟨i, d, hd, hstatus⟩ := mem_declarations.1 h
  exact mem_declarations.2 ⟨i, d, (getElem?_define hd).resolve_right fun h => by simp [hstatus] at h, hstatus⟩

theorem evolves_define (c : Compiler σ) (name : String) (params : List Param) (returns : ValueType) (body : Body σ) :
    c.Evolves (c.define name params returns body).2 := by
  refine ⟨.refl _ _, fun i d hd => ⟨d, ?_, rfl⟩⟩
  rw [define, List.getElem?_append_left (List.getElem?_eq_some_iff.1 hd).1]
  exact hd

/-- The compiler with another note of how far the declaration of a subroutine has come. -/
def withStatus (c : Compiler σ) (s : Subroutine) (status : Status) : Compiler σ :=
  { c with definitions := c.definitions.modify s.id.number.toNat fun d => { d with status } }

theorem setStatus_ensures {c : Compiler σ} {s : Subroutine} {status : Status} {ok : Unit → Compiler σ → Prop}
    {failed : Compiler σ → Prop} (h : ok () (c.withStatus s status)) :
    Declaring.Ensures (perform (setStatus s status)) c ok failed :=
  Declaring.ensures_perform (Fallible.ensures_modify h)

theorem getElem?_withStatus (c : Compiler σ) (s : Subroutine) (status : Status) (i : Nat) :
    (c.withStatus s status).definitions[i]? =
      if s.id.number.toNat = i then c.definitions[i]?.map fun d => { d with status } else c.definitions[i]? := by
  rw [withStatus, List.getElem?_modify]
  split <;> simp

theorem mem_declarations_withStatus {c : Compiler σ} {s : Subroutine} {status : Status} {decl : Declaration}
    (h : decl ∈ (c.withStatus s status).declarations) : decl ∈ c.declarations ∨ status = .declared decl := by
  obtain ⟨i, d, hd, hdecl⟩ := mem_declarations.1 h
  rw [getElem?_withStatus] at hd
  split at hd
  · obtain ⟨d', -, rfl⟩ := Option.map_eq_some_iff.1 hd
    exact .inr hdecl
  · exact .inl (mem_declarations.2 ⟨i, d, hd, hdecl⟩)

theorem evolves_withStatus (c : Compiler σ) (s : Subroutine) (status : Status) : c.Evolves (c.withStatus s status) := by
  refine ⟨.refl _ _, fun i d hd => ?_⟩
  rw [getElem?_withStatus]
  split
  · exact ⟨{ d with status }, by rw [hd, Option.map_some], rfl⟩
  · exact ⟨d, hd, rfl⟩

/-! ### Slots -/

/-- Nothing has changed but the slots that were handed out. -/
structure Takes (c c' : Compiler σ) : Prop where
  rest : c' = { c with slots := c'.slots }
  slots : c.slots.Grows c'.slots

theorem Takes.refl (c : Compiler σ) : c.Takes c := ⟨rfl, .refl _⟩

theorem Takes.trans {c c' c'' : Compiler σ} (h : c.Takes c') (h' : c'.Takes c'') : c.Takes c'' :=
  ⟨by rw [h'.rest, h.rest], h.slots.trans h'.slots⟩

/-- From any state, nothing changes but the slots. -/
def TakesSlots (x : Compiling σ α) : Prop := ∀ c, Fallible.Ensures x c (fun _ c' => c.Takes c') c.Takes

theorem takesSlots_pure (a : α) : TakesSlots (pure a : Compiling σ α) := fun c => .refl c

theorem takesSlots_bind {x : Compiling σ α} {k : α → Compiling σ β} (hx : TakesSlots x) (hk : ∀ a, TakesSlots (k a)) :
    TakesSlots (x >>= k) := fun c =>
  Fallible.ensures_bind ((hx c).imp (fun a c' h => (hk a c').imp (fun _ _ h' => h.trans h') fun _ h' => h.trans h')
    fun _ h => h)

theorem takesSlots_newLocation (request : SlotRequest) : TakesSlots (newLocation (σ := σ) request) := by
  intro c
  refine Fallible.ensures_bind (Fallible.ensures_get (Fallible.ensures_bind (Fallible.ensures_lift (fun a ha => ?_)
    (.refl c))))
  exact Fallible.ensures_bind (Fallible.ensures_modify (Fallible.ensures_pure ⟨rfl, SlotAllocator.take_grows ha⟩))

theorem takesSlots_newVariable (type : ValueType) (request : SlotRequest) (target : Option Variable) :
    TakesSlots (newVariable (σ := σ) type request target) := by
  unfold newVariable
  split
  · exact takesSlots_bind (takesSlots_newLocation _) fun location => takesSlots_pure _
  · intro c
    split
    · exact Fallible.ensures_bind (Fallible.ensures_throw (.refl c))
    · exact Fallible.ensures_pure (.refl c)
  · exact fun c => Fallible.ensures_throw (.refl c)

theorem takesSlots_bindParams (params : List Param) : TakesSlots (params.mapM (bindParam (σ := σ))) := by
  have hparam : ∀ p, TakesSlots (bindParam (σ := σ) p) := by
    intro p
    unfold bindParam
    split
    · exact takesSlots_bind (takesSlots_newVariable _ _ _) fun v => takesSlots_pure _
    · refine takesSlots_bind (takesSlots_newVariable _ _ _) fun holder => ?_
      refine takesSlots_bind (takesSlots_newVariable _ _ _) fun target => ?_
      exact takesSlots_bind (takesSlots_newVariable _ _ _) fun shared => takesSlots_pure _
  induction params with
  | nil => exact takesSlots_pure []
  | cons p params ih =>
    rw [List.mapM_cons]
    exact takesSlots_bind (hparam p) fun a => takesSlots_bind ih fun l => takesSlots_pure _

/-! ### Safe actions -/

/-- A relation from a state to those that may come of it, which is kept by all that a host can ask for but
declarations.  That it holds of a state and itself says what is to be true of every state. -/
structure Course (K : Compiler σ → Compiler σ → Prop) : Prop where
  trans : ∀ {c c' c''}, K c c' → K c' c'' → K c c''
  stays : ∀ {c c'}, K c c' → K c' c'
  slots : ∀ {c slots}, K c c → c.slots.Grows slots → K c { c with slots }
  host : ∀ {c} host, K c c → K c { c with host }
  current : ∀ {c} current, K c c → K c { c with current }
  define : ∀ {c} name params returns body, K c c → K c (c.define name params returns body).2
  lower : ∀ {c c' e answer}, K c c → (Compiler.lower e).run.run c = (answer, c') → Advances c.graph.size c c' → K c c'

/-- From a state that the relation holds of, an action comes only to states that may come of it. -/
def Safe (K : Compiler σ → Compiler σ → Prop) (x : Declaring σ α) : Prop :=
  ∀ c : Compiler σ, K c c → Declaring.Ensures x c (fun _ c' => K c c') (K c)

section Safe

variable {K : Compiler σ → Compiler σ → Prop}

theorem safe_pure (a : α) : Safe K (pure a : Declaring σ α) := fun _ hc => hc

theorem safe_throw (e : CompileError) : Safe K (throw e : Declaring σ α) := fun _ hc => hc

theorem safe_get : Safe K (get : Declaring σ (Compiler σ)) := fun _ hc => hc

theorem safe_tooDeep : Safe K (tooDeep : Declaring σ α) := fun _ _ => Declaring.ensures_tooDeep

theorem safe_modify {f : Compiler σ → Compiler σ} (h : ∀ c, K c c → K c (f c)) :
    Safe K (modify f : Declaring σ Unit) := fun c hc => Declaring.ensures_modify (h c hc)

theorem safe_attempt {x : Declaring σ α} (hx : Safe K x) : Safe K (attempt x) :=
  fun c hc => Declaring.ensures_attempt ((hx c hc).imp (fun _ _ h => h) fun _ h _ => h)

variable (hK : Course K)

include hK

theorem safe_bind {x : Declaring σ α} {k : α → Declaring σ β} (hx : Safe K x) (hk : ∀ a, Safe K (k a)) :
    Safe K (x >>= k) := fun c hc =>
  Declaring.ensures_bind ((hx c hc).imp (fun a c' h => (hk a c' (hK.stays h)).imp (fun _ _ h' => hK.trans h h')
    fun _ h' => hK.trans h h') fun _ h => h)

theorem safe_perform_lower (e : Expr) : Safe K (perform (lower (σ := σ) e)) := fun c hc =>
  Declaring.ensures_perform (((lower_ensures e c).and (Fallible.ensures_run _ _)).imp
    (fun _ _ h => hK.lower hc h.2 h.1.advances) fun _ ⟨h, _, hrun⟩ => hK.lower hc hrun h)

theorem safe_takesSlots {x : Compiling σ α} (hx : TakesSlots x) : Safe K (perform x) := by
  intro c hc
  have htakes : ∀ c', c.Takes c' → K c c' := by
    intro c' h
    rw [h.rest]
    exact hK.slots hc h.slots
  exact Declaring.ensures_perform ((hx c).imp (fun _ c' h => htakes c' h) fun c' h => htakes c' h)

/-! ### Builders -/

theorem safe_run {declare : Subroutine → Declaring σ Declaration} (hdeclare : ∀ s, Safe K (declare s))
    (b : Builder σ) : Safe K (b.run declare) := by
  induction b with
  | done body => exact safe_pure body
  | fail error => exact safe_throw error
  | newVariable type request target next ih =>
    exact safe_bind hK (safe_attempt (safe_takesSlots hK (takesSlots_newVariable type request target))) ih
  | define name params returns body next _ ih =>
    refine safe_bind hK (fun c hc => ?_) ih
    exact Declaring.ensures_modifyGet (hK.define name params returns body hc)
  | lookup name next ih => exact safe_bind hK safe_get fun c => ih _
  | declare sub next ih => exact safe_bind hK (safe_attempt (hdeclare sub)) ih
  | lower e next ih => exact safe_bind hK (safe_attempt (safe_perform_lower hK e)) ih
  | inspect next ih => exact safe_bind hK safe_get fun c => ih _ _
  | getState next ih => exact safe_bind hK safe_get fun c => ih _
  | setState state next ih => exact safe_bind hK (safe_modify fun _ hc => hK.host state hc) fun _ => ih

/-! ### Declarations -/

theorem lowerWithin_runs (s : Subroutine) (e : Expr) {c : Compiler σ} (hc : K c c) :
    Declaring.Ensures (lowerWithin s e) c
      (fun f c' => K c c' ∧ ∃ c₁, (lower e).run.run { c with current := some s } = (.ok f, c₁) ∧
        c' = { c₁ with current := c.current }) (K c) := by
  refine Declaring.ensures_bind (Declaring.ensures_get (Declaring.ensures_bind (Declaring.ensures_modify ?_)))
  have hK₁ := hK.current (some s) hc
  have hlower := (lower_ensures e { c with current := some s }).and (Fallible.ensures_run _ _)
  refine Declaring.ensures_bind (Declaring.ensures_attempt (Declaring.ensures_perform ?_))
  refine hlower.imp (fun f c₁ h => ?_) fun c₁ ⟨h, _, hrun⟩ e => ?_
  · have hK₂ := hK.trans hK₁ (hK.lower (hK.stays hK₁) h.2 h.1.advances)
    exact Declaring.ensures_bind (Declaring.ensures_modify
      ⟨hK.trans hK₂ (hK.current _ (hK.stays hK₂)), c₁, h.2, rfl⟩)
  · have hK₂ := hK.trans hK₁ (hK.lower (hK.stays hK₁) hrun h)
    exact Declaring.ensures_bind (Declaring.ensures_modify (hK.trans hK₂ (hK.current _ (hK.stays hK₂))))

/-- How a declaration came about: the parameters were bound to variables, the host built the body, and the code was
lowered as part of the subroutine. -/
def BuiltFrom (K : Compiler σ → Compiler σ → Prop) (d : Definition σ) (c : Compiler σ) (decl : Declaration)
    (c' : Compiler σ) : Prop :=
  ∃ params c₁ c₂ c₃ code, (d.handle.params.mapM bindParam).run.run c = (.ok params, c₁) ∧ K c₁ c₂ ∧
    decl.subroutine = d.handle ∧ decl.holders = params.map (·.1) ∧
    prologue decl.holders (withReturn decl.subroutine decl.body) = .ok code ∧
    (lower code).run.run { c₂ with current := some d.handle } = (.ok decl.fragment, c₃) ∧
    c' = { c₃ with current := c₂.current }

omit hK in
theorem BuiltFrom.mono {K' : Compiler σ → Compiler σ → Prop} {d : Definition σ} {c c' : Compiler σ} {decl : Declaration}
    (h : BuiltFrom K d c decl c') (himp : ∀ {c c'}, K c c' → K' c c') : BuiltFrom K' d c decl c' := by
  obtain ⟨params, c₁, c₂, c₃, code, hparams, hstep, hrest⟩ := h
  exact ⟨params, c₁, c₂, c₃, code, hparams, himp hstep, hrest⟩

theorem build_runs {declare : Subroutine → Declaring σ Declaration} (hdeclare : ∀ s, Safe K (declare s))
    {c : Compiler σ} (hc : K c c) (d : Definition σ) :
    Declaring.Ensures (build declare d) c (fun decl c' => K c c' ∧ K c' c' ∧ BuiltFrom K d c decl c') (K c) := by
  unfold build
  have hparams := (takesSlots_bindParams d.handle.params c).and (Fallible.ensures_run _ _)
  have htakes : ∀ c', c.Takes c' → K c c' := by
    intro c' h
    rw [h.rest]
    exact hK.slots hc h.slots
  refine Declaring.ensures_bind (Declaring.ensures_perform (hparams.imp (fun params c₁ h => ?_) fun c' h =>
    htakes c' h.1))
  have hK₁ := htakes c₁ h.1
  refine Declaring.ensures_bind ((safe_run hK hdeclare _ c₁ (hK.stays hK₁)).imp (fun body c₂ hstep => ?_)
    fun c' h' => hK.trans hK₁ h')
  have hK₂ := hK.trans hK₁ hstep
  refine Declaring.ensures_bind (Declaring.ensures_lift (fun _ _ => ?_) hK₂)
  refine Declaring.ensures_bind (Declaring.ensures_lift (fun code hcode => ?_) hK₂)
  refine Declaring.ensures_bind ((lowerWithin_runs hK d.handle code (hK.stays hK₂)).imp
    (fun f c' h' => Declaring.ensures_pure ?_) fun c' h' => hK.trans hK₂ h')
  obtain ⟨hK₃, c₃, hlower, hc'⟩ := h'
  exact ⟨hK.trans hK₂ hK₃, hK.stays hK₃, params, c₁, c₂, c₃, code, h.2, hstep, rfl, rfl, hcode, hlower, hc'⟩

omit hK in
theorem BuiltFrom.length_holders {d : Definition σ} {c c' : Compiler σ} {decl : Declaration}
    (h : BuiltFrom K d c decl c') : decl.holders.length = decl.subroutine.arity := by
  obtain ⟨params, c₁, c₂, c₃, code, hparams, -, hsub, hholders, -⟩ := h
  have hlength := (ensures_mapM_length bindParam d.handle.params c).of_ok hparams
  rw [hholders, List.length_map, hlength, hsub, Subroutine.arity]

end Safe

/-! ### Declarations from their beginning to their end -/

/-- A course that is kept when a declaration begins, when it is abandoned, and when it has been made. -/
structure Enduring (K : Compiler σ → Compiler σ → Prop) : Prop extends Course K where
  evolves : ∀ {c c'}, K c c' → c.Evolves c'
  pending : ∀ {c} pending, K c c → K c { c with pending }
  undeclared : ∀ {c s status}, K c c → (∀ decl, status ≠ .declared decl) → K c (c.withStatus s status)
  declared : ∀ {c c' s d decl}, K c c → K c c' → BuiltFrom K d c decl c' → d.handle = s → c'.Defines s →
    K c (c'.withStatus s (.declared decl))

section Enduring

variable {K : Compiler σ → Compiler σ → Prop} (hK : Enduring K)

include hK

theorem safe_declareBy {build : Definition σ → Declaring σ Declaration}
    (hbuild : ∀ (d : Definition σ) (c : Compiler σ), K c c →
      Declaring.Ensures (build d) c (fun decl c' => K c c' ∧ BuiltFrom K d c decl c') (K c))
    (s : Subroutine) : Safe K (declareBy build s) := by
  intro c hc
  unfold declareBy
  refine Declaring.ensures_bind (Declaring.ensures_perform (definition_ensures.imp (fun d c₁ h => ?_) fun c' h => ?_))
  swap
  · exact h ▸ hc
  obtain ⟨rfl, hdef⟩ := h
  split
  · exact Declaring.ensures_pure hc
  · exact Declaring.ensures_throw hc
  · have hbegun : K c₁ (c₁.withStatus s .declaring) := hK.undeclared hc (by simp)
    refine Declaring.ensures_bind (setStatus_ensures (Declaring.ensures_bind (Declaring.ensures_attempt
      ((hbuild d _ (hK.stays hbegun)).imp (fun decl c₃ h₃ => ?_) fun c₃ h₃ e => ?_))))
    · obtain ⟨hK₃, hbuilt⟩ := h₃
      have hdefines := (hK.evolves (hK.trans hbegun hK₃)).defines s ⟨d, hdef⟩
      have hmade := hK.declared (hK.stays hbegun) hK₃ hbuilt (definition?_eq_some hdef).2 hdefines
      exact Declaring.ensures_bind (setStatus_ensures (Declaring.ensures_pure (hK.trans hbegun hmade)))
    · have hK₃ := hK.trans hbegun h₃
      have hended : K c₃ (c₃.withStatus s .undeclared) := hK.undeclared (hK.stays hK₃) (by simp)
      exact Declaring.ensures_bind (setStatus_ensures (Declaring.ensures_throw (hK.trans hK₃ hended)))

/-- Declaring a subroutine is safe, to whatever depth. -/
theorem safe_declare (depth : Nat) (s : Subroutine) : Safe K (declare (σ := σ) depth s) := by
  induction depth generalizing s with
  | zero =>
    rw [declare]
    exact safe_declareBy hK (fun _ _ _ => Declaring.ensures_tooDeep) s
  | succ depth ih =>
    rw [declare]
    refine safe_declareBy hK (fun d c hc => ?_) s
    exact (build_runs hK.toCourse ih hc d).imp (fun _ _ h => ⟨h.1, h.2.2⟩) fun _ h => h

theorem safe_declarePending (depth rounds : Nat) : Safe K (declarePending (σ := σ) depth rounds) := by
  induction rounds with
  | zero =>
    rw [declarePending]
    refine safe_bind hK.toCourse safe_get fun c => ?_
    split
    · exact safe_pure ()
    · exact safe_tooDeep
  | succ rounds ih =>
    rw [declarePending]
    refine safe_bind hK.toCourse safe_get fun c => ?_
    split
    · exact safe_pure ()
    · refine safe_bind hK.toCourse (safe_modify fun _ hc => hK.pending _ hc) fun _ => ?_
      exact safe_bind hK.toCourse (safe_bind hK.toCourse (safe_declare hK depth _) fun _ => safe_pure ()) fun _ => ih

theorem safe_compile (limit : Nat) (root : Expr) : Safe K (compile (σ := σ) limit root) := by
  unfold compile
  refine safe_bind hK.toCourse (safe_modify fun _ hc => hK.current none hc) fun _ => ?_
  refine safe_bind hK.toCourse (safe_perform_lower hK.toCourse root) fun main => ?_
  refine safe_bind hK.toCourse (safe_declarePending hK limit limit) fun _ => ?_
  exact safe_bind hK.toCourse safe_get fun c => safe_pure _

end Enduring

/-! ### Reachable compilers -/

/-- The compilers that requests of a host lead to, whether they are answered or refused. -/
inductive Reachable : Compiler σ → Prop
  | create {key : Nat} {options : Options} {host : σ} {c : Compiler σ} : create key options host = .ok c → Reachable c
  | newVariable {c : Compiler σ} (type : ValueType) (request : SlotRequest) (target : Option Variable) : Reachable c →
      Reachable ((newVariable type request target).run.run c).2
  | define {c : Compiler σ} (name : String) (params : List Param) (returns : ValueType) (body : Body σ) : Reachable c →
      Reachable (c.define name params returns body).2
  | lower {c : Compiler σ} (e : Expr) : Reachable c → Reachable ((lower e).run.run c).2
  | declare {c c' : Compiler σ} {depth : Nat} {s : Subroutine} {answer : Except CompileError Declaration} :
      Reachable c → (declare depth s).run.run c = some (answer, c') → Reachable c'
  | compile {c c' : Compiler σ} {limit : Nat} {root : Expr} {answer : Except CompileError Compilation} :
      Reachable c → (compile limit root).run.run c = some (answer, c') → Reachable c'

theorem Safe.holds {K : Compiler σ → Compiler σ → Prop} {x : Declaring σ α} (hx : Safe K x) {c c' : Compiler σ}
    (hc : K c c) {answer : Except CompileError α} (h : x.run.run c = some (answer, c')) : K c c' := by
  have hensures := hx c hc
  rw [Declaring.Ensures, h] at hensures
  cases answer with
  | ok a => exact hensures
  | error e => exact hensures

/-- What is true of new compilers and kept by all requests is true of every compiler that a host can come to have. -/
theorem Reachable.holds {K : Compiler σ → Compiler σ → Prop} (hK : Enduring K) {c : Compiler σ}
    (hcreate : ∀ key options host c, Compiler.create key options host = .ok c → K c c) (h : c.Reachable) : K c c := by
  induction h with
  | create h => exact hcreate _ _ _ _ h
  | newVariable type request target _ ih =>
    exact hK.stays ((safe_takesSlots hK.toCourse (takesSlots_newVariable type request target)).holds ih rfl)
  | define name params returns body _ ih => exact hK.stays (hK.define name params returns body ih)
  | lower e _ ih => exact hK.stays ((safe_perform_lower hK.toCourse e).holds ih rfl)
  | declare _ h ih => exact hK.stays ((safe_declare hK _ _).holds ih h)
  | compile _ h ih => exact hK.stays ((safe_compile hK _ _).holds ih h)

end Compiler

end ScratchMachine
