import ScratchMachine.Proofs.Dangling
import ScratchMachine.Proofs.Moments

/-!
# How far declarations have come

At every moment of the work on a compiler, the subroutines whose declaration is noted as being made are those whose bodies
hosts are building, and a declaration that is noted as made stays.

* `Moment.Coherent`: what the notes of a compiler say at a moment.
* `Moment.declared_of_leads`: what has been declared stays declared.
* `Moment.states_of_declarations`: the states that a declaration goes through.
-/

namespace ScratchMachine

open BlockGraph Fallible Declaring

/-! ### Fragments that stay -/

/-- What control can reach from a fragment stays the same when the graph grows. -/
theorem Fragment.Resolved.reaches_iff {g g' : BlockGraph} {known : SubroutineId → Prop} {f : Fragment}
    (h : f.Resolved g known) (hgrows : Grows g.size g g') (id : BlockId) :
    (g'.Reaches f.entry id ↔ g.Reaches f.entry id) ∧
      (g.Reaches f.entry id → id.index < g.size ∧ g'.block? id = g.block? id) := by
  obtain ⟨lo, hi, hentry, hhi, hencloses⟩ := h
  have hinside : ∀ {id}, g.Reaches f.entry id → id.index < g.size := fun hreach =>
    Nat.lt_of_lt_of_le (hencloses.reaches hentry hreach).2 hhi
  have hsuccessors : ∀ {id : BlockId}, id.index < g.size → g'.successors id = g.successors id := by
    intro id hid
    rw [successors, successors, hgrows.keeps id hid]
  refine ⟨⟨fun hreach => ?_, fun hreach => ?_⟩, fun hreach => ⟨hinside hreach, hgrows.keeps id (hinside hreach)⟩⟩
  · induction hreach with
    | refl => exact .refl
    | tail _ hstep ih =>
      rw [hsuccessors (hinside ih)] at hstep
      exact ih.tail hstep
  · induction hreach with
    | refl => exact .refl
    | tail hreach hstep ih =>
      rw [← hsuccessors (hinside hreach)] at hstep
      exact ih.tail hstep

namespace Compiler

variable {σ : Type} {c c' : Compiler σ} {s s' : Subroutine} {d : Definition σ} {status : Status}

/-- What is true of every declaration when it is made, and stays true when the graph grows, is kept by all that hosts
can do. -/
theorem enduring_of_built {P : Declaration → BlockGraph → Prop}
    (hmono : ∀ {decl : Declaration} {g g' : BlockGraph}, P decl g → Grows g.size g g' → P decl g')
    (hbuilt : ∀ {d : Definition σ} {c c' : Compiler σ} {decl : Declaration}, BuiltFrom Keeps d c decl c' →
      P decl c'.graph) :
    Enduring fun c c' : Compiler σ => c.Keeps c' ∧ ∀ decl ∈ c'.declarations, P decl c'.graph where
  trans h h' := ⟨h.1.trans h'.1, h'.2⟩
  stays h := ⟨h.1.1.keeps, h.2⟩
  slots h hslots := ⟨enduring_keeps.slots h.1 hslots, h.2⟩
  host host h := ⟨enduring_keeps.host host h.1, h.2⟩
  current current h := ⟨enduring_keeps.current current h.1, h.2⟩
  define name params returns body h :=
    ⟨enduring_keeps.define name params returns body h.1, fun decl hdecl => h.2 decl (mem_declarations_define hdecl)⟩
  lower h hlower hadvances := by
    refine ⟨enduring_keeps.lower h.1 hlower hadvances, fun decl hdecl => hmono (h.2 decl ?_) hadvances.grows⟩
    rw [hadvances.rest] at hdecl
    exact hdecl
  evolves h := h.1.2
  pending pending h := ⟨enduring_keeps.pending pending h.1, h.2⟩
  undeclared h hstatus := ⟨enduring_keeps.undeclared h.1 hstatus, fun decl hdecl =>
    h.2 decl ((mem_declarations_withStatus hdecl).resolve_right (hstatus decl))⟩
  declared hc h hmade hhandle hdefines := by
    have hmade' := hmade.mono fun h => h.1
    refine ⟨enduring_keeps.declared hc.1 h.1 hmade' hhandle hdefines, fun decl' hdecl' => ?_⟩
    rcases mem_declarations_withStatus hdecl' with hold | hnew
    · exact h.2 decl' hold
    · cases hnew
      have hnew := hbuilt hmade'
      exact hnew

/-- Control does not leave the fragments of declarations. -/
theorem enduring_resolved : Enduring fun c c' : Compiler σ =>
    c.Keeps c' ∧ ∀ decl ∈ c'.declarations, decl.fragment.Resolved c'.graph fun _ => True :=
  enduring_of_built (P := fun decl g => decl.fragment.Resolved g fun _ => True)
    (fun h hgrows => h.mono hgrows fun _ h => h) fun hbuilt => hbuilt.resolved.mono (.refl _ _) fun _ _ => trivial

theorem no_declarations {key : Nat} {options : Options} {host : σ} (h : create key options host = .ok c) :
    c.declarations = [] := by
  obtain ⟨-, -, h⟩ := except_bind_eq_ok.1 h
  cases h
  rfl

section Compilation

variable {P : Declaration → BlockGraph → Prop}
  (hendures : Enduring fun c c' : Compiler σ => c.Keeps c' ∧ ∀ decl ∈ c'.declarations, P decl c'.graph)

include hendures

/-- What all declarations keep, those of every compiler have. -/
theorem built_of_reachable (hc : c.Reachable) : ∀ decl ∈ c.declarations, P decl c.graph := by
  have hall := hc.holds hendures fun key options host c hcreate =>
    ⟨(sound_of_create hcreate).keeps, by simp [no_declarations hcreate]⟩
  exact hall.2

/-- What all declarations keep, those of a compilation have.  The blocks of the main program are as they were lowered. -/
theorem built_of_compile (hc : c.Sound) (hdecls : ∀ decl ∈ c.declarations, P decl c.graph) {limit : Nat} {root : Expr}
    {compilation : Compilation} (hcompile : (compile limit root).run.run c = some (.ok compilation, c')) :
    (∃ lowered, (lower root).run.run { c with current := none } = (.ok compilation.main, lowered) ∧
        Grows lowered.graph.size lowered.graph compilation.graph) ∧
      ∀ decl ∈ compilation.declarations, P decl compilation.graph := by
  obtain ⟨main, lowered, hlower, hpending, rfl⟩ := Moment.compile_eq_ok hcompile
  have hlowered := hendures.lower (hendures.stays (hendures.current none ⟨hc.keeps, hdecls⟩)) hlower
    (Moment.advances_lower hlower)
  have hdone := (safe_declarePending hendures limit limit).holds (hendures.stays hlowered) hpending
  exact ⟨⟨lowered, hlower, hdone.1.2.grows⟩, hdone.2⟩

end Compilation

/-! ### Notes of declarations -/

theorem definition?_eq_some_iff : c.definition? s = some d ↔ c.definitions[s.id.number.toNat]? = some d ∧ d.handle = s :=
  ⟨definition?_eq_some, fun h => by rw [definition?, h.1, Option.filter_some, if_pos (by simp [h.2])]⟩

/-- A note about a subroutine concerns no other. -/
theorem definition?_withStatus_of_ne (hne : s'.id.number.toNat ≠ s.id.number.toNat) :
    (c.withStatus s' status).definition? s = c.definition? s := by
  rw [definition?, getElem?_withStatus, if_neg hne, definition?]

/-- Two subroutines of which different things are noted are not the same. -/
theorem place_ne_of_status_ne {d' : Definition σ} (h : c.definition? s = some d) (h' : c.definition? s' = some d')
    (hne : d'.status ≠ d.status) : s'.id.number.toNat ≠ s.id.number.toNat := by
  intro heq
  have hget := (definition?_eq_some h').1
  rw [heq, (definition?_eq_some h).1] at hget
  exact hne (congrArg Definition.status (Option.some.inj hget)).symm

theorem definition?_withStatus_self (h : c.definition? s = some d) :
    (c.withStatus s status).definition? s = some { d with status } := by
  rw [definition?_eq_some_iff] at h ⊢
  refine ⟨?_, h.2⟩
  rw [getElem?_withStatus, if_pos rfl, h.1, Option.map_some]

/-- A note that is taken back leaves everything noted as it was. -/
theorem definitions_restored (hd : c.definition? s = some d) (hundeclared : d.status = .undeclared)
    (hdefs : c'.definitions = (c.withStatus s status).definitions) :
    (c'.withStatus s .undeclared).definitions = c.definitions := by
  refine List.ext_getElem? fun i => ?_
  rw [getElem?_withStatus, hdefs, getElem?_withStatus]
  by_cases hi : s.id.number.toNat = i
  · subst hi
    rw [if_pos rfl, if_pos rfl, (definition?_eq_some hd).1, Option.map_some, Option.map_some, ← hundeclared]
  · rw [if_neg hi, if_neg hi]

/-- The end of a declaration is noted as such. -/
theorem record_eq (c : Compiler σ) (s : Subroutine) (answer : Except CompileError Declaration) :
    ∃ status, status ≠ .declaring ∧ c.record s answer = c.withStatus s status := by
  cases answer with
  | ok decl => exact ⟨.declared decl, by simp, rfl⟩
  | error e => exact ⟨.undeclared, by simp, rfl⟩

theorem definition?_congr (h : c'.definitions = c.definitions) : c'.definition? s = c.definition? s := by
  rw [definition?, definition?, h]

end Compiler

namespace Moment

variable {σ : Type} {m m' : Moment σ} {happened : List Event} {c c' : Compiler σ} {s : Subroutine} {d : Definition σ}

open Compiler

theorem Quiet.current_eq (h : Quiet c c') : c'.current = c.current := by
  cases h with
  | allots h => rw [h.rest]
  | define => rfl
  | lowers _ h => rw [h.rest]
  | host => rfl

theorem Quiet.getElem? (h : Quiet c c') {i : Nat} (hd : c'.definitions[i]? = some d) :
    c.definitions[i]? = some d ∨ d.status = .undeclared := by
  cases h with
  | allots h =>
    rw [h.rest] at hd
    exact .inl hd
  | define => exact getElem?_define hd
  | lowers _ h =>
    rw [h.rest] at hd
    exact .inl hd
  | host => exact .inl hd

theorem Quiet.definition? (h : Quiet c c') (hd : c.definition? s = some d) : c'.definition? s = some d := by
  cases h with
  | allots h => rwa [definition?_congr (by rw [h.rest])]
  | define =>
    rw [definition?_eq_some_iff] at hd ⊢
    refine ⟨?_, hd.2⟩
    rw [Compiler.define, List.getElem?_append_left (List.getElem?_eq_some_iff.1 hd.1).1]
    exact hd.1
  | lowers _ h => rwa [definition?_congr (by rw [h.rest])]
  | host => exact hd

/-! ### Coherent moments -/

/-- The bodies that are being built are those of the subroutines of which it is noted, and no subroutine is being
lowered but what `current` says. -/
structure Coherent (current : Option Subroutine) (ongoing : List (Ongoing σ)) (c : Compiler σ) : Prop where
  current : c.current = current
  /-- Of every subroutine whose body is being built it is noted. -/
  noted : ∀ o ∈ ongoing, ∃ d, c.definition? o.sub = some d ∧ d.status = .declaring
  /-- Of no other subroutine it is noted. -/
  only : ∀ (i : Nat) (d : Definition σ), c.definitions[i]? = some d → d.status = .declaring →
    ∃ o ∈ ongoing, o.sub.id.number.toNat = i
  /-- No body is being built twice. -/
  apart : ongoing.Pairwise fun o o' => o.sub.id.number.toNat ≠ o'.sub.id.number.toNat

variable {current : Option Subroutine} {ongoing : List (Ongoing σ)}

theorem Coherent.quiet (h : Coherent current ongoing c) (hquiet : Quiet c c') :
    Coherent current ongoing c' := by
  refine ⟨hquiet.current_eq.trans h.current, fun o ho => ?_, fun i d hd hstatus => ?_, h.apart⟩
  · obtain ⟨d, hd, hstatus⟩ := h.noted o ho
    exact ⟨d, hquiet.definition? hd, hstatus⟩
  · exact h.only i d ((hquiet.getElem? hd).resolve_right (by simp [hstatus])) hstatus

/-- The place of a subroutine whose declaration was not begun is not that of one whose body is being built. -/
theorem Coherent.place_ne (h : Coherent current ongoing c) (hd : c.definition? s = some d)
    (hstatus : d.status ≠ .declaring) {o : Ongoing σ} (ho : o ∈ ongoing) : s.id.number.toNat ≠ o.sub.id.number.toNat := by
  obtain ⟨d', hd', hdeclaring⟩ := h.noted o ho
  exact place_ne_of_status_ne hd' hd (by rwa [hdeclaring])

theorem Coherent.congr (h : Coherent current ongoing c) (hdefs : c'.definitions = c.definitions)
    (hcurrent : c'.current = c.current) : Coherent current ongoing c' := by
  refine ⟨hcurrent.trans h.current, fun o ho => ?_, fun i d hd => h.only i d (hdefs ▸ hd), h.apart⟩
  rw [definition?_congr hdefs]
  exact h.noted o ho

theorem Coherent.begin (h : Coherent current ongoing c) (hd : c.definition? s = some d)
    (hundeclared : d.status = .undeclared) {o : Ongoing σ} (ho : o.sub = s) :
    Coherent current (o :: ongoing) (c.withStatus s .declaring) := by
  have hne : ∀ o' ∈ ongoing, s.id.number.toNat ≠ o'.sub.id.number.toNat := fun o' ho' =>
    h.place_ne hd (by simp [hundeclared]) ho'
  refine ⟨h.current, fun o' ho' => ?_, fun i d' hd' hstatus => ?_, List.pairwise_cons.2 ⟨?_, h.apart⟩⟩
  · rcases List.mem_cons.1 ho' with rfl | ho'
    · exact ⟨{ d with status := .declaring }, by rw [ho, definition?_withStatus_self hd], rfl⟩
    · rw [definition?_withStatus_of_ne (hne o' ho')]
      exact h.noted o' ho'
  · by_cases hi : s.id.number.toNat = i
    · exact ⟨o, List.mem_cons_self .., ho ▸ hi⟩
    · rw [getElem?_withStatus, if_neg hi] at hd'
      obtain ⟨o', ho', hplace⟩ := h.only i d' hd' hstatus
      exact ⟨o', List.mem_cons_of_mem _ ho', hplace⟩
  · rw [ho]
    exact hne

theorem Coherent.end' {o : Ongoing σ} (h : Coherent current (o :: ongoing) c) {status : Status}
    (hstatus : status ≠ .declaring) : Coherent current ongoing (c.withStatus o.sub status) := by
  obtain ⟨hne, hapart⟩ := List.pairwise_cons.1 h.apart
  refine ⟨h.current, fun o' ho' => ?_, fun i d hd hdeclaring => ?_, hapart⟩
  · rw [definition?_withStatus_of_ne (hne o' ho')]
    exact h.noted o' (List.mem_cons_of_mem _ ho')
  · rw [getElem?_withStatus] at hd
    split at hd
    · obtain ⟨d', -, rfl⟩ := Option.map_eq_some_iff.1 hd
      exact absurd hdeclaring hstatus
    · rename_i hi
      obtain ⟨o', ho', hplace⟩ := h.only i d hd hdeclaring
      rcases List.mem_cons.1 ho' with rfl | ho'
      · exact absurd hplace hi
      · exact ⟨o', ho', hplace⟩

theorem coherent_of_move (hmove : Move m happened m') (h : Coherent current m.ongoing m.compiler) :
    Coherent current m'.ongoing m'.compiler := by
  cases hmove with
  | gives hnew => exact h.quiet (.allots (allots_newVariable hnew))
  | answers hquiet => exact h.quiet hquiet
  | turns pending => exact h.congr rfl rfl
  | replies answer _ => exact h.congr rfl rfl
  | refuses hd hundeclared hparams =>
    have hallots := allots_bindParams hparams
    refine h.congr (definitions_restored hd hundeclared (by rw [hallots.rest])) ?_
    show Compiler.current _ = _
    rw [hallots.rest]
    rfl
  | begins hd hundeclared hparams =>
    have hallots := allots_bindParams hparams
    refine (h.begin hd hundeclared rfl).congr ?_ ?_
    · rw [hallots.rest]
    · rw [hallots.rest]
  | @ends c c' built o ongoing answer hend =>
    have hadvances := advances_conclude hend
    obtain ⟨status, hstatus, heq⟩ := record_eq c' o.sub answer
    rw [heq]
    exact (h.congr (by rw [hadvances.rest]) hadvances.current_eq).end' hstatus

theorem coherent_of_leads (hleads : Leads m happened m') (h : Coherent current m.ongoing m.compiler) :
    Coherent current m'.ongoing m'.compiler := by
  induction hleads with
  | here m => exact h
  | step hstep _ ih => exact ih (coherent_of_move (move_of_step hstep) h)

/-! ### What has been declared stays -/

theorem grows_of_move (hmove : Move m happened m') :
    Grows m.compiler.graph.size m.compiler.graph m'.compiler.graph := by
  cases hmove with
  | gives hnew =>
    rw [(allots_newVariable hnew).rest]
    exact .refl _ _
  | answers hquiet =>
    cases hquiet with
    | allots hallots =>
      rw [hallots.rest]
      exact .refl _ _
    | define => exact .refl _ _
    | lowers _ hadvances => exact hadvances.grows
    | host => exact .refl _ _
  | turns => exact .refl _ _
  | replies => exact .refl _ _
  | @refuses c c' s d next ongoing e _ _ hparams =>
    show Grows _ _ c'.graph
    rw [(allots_bindParams hparams).rest]
    exact .refl _ _
  | begins _ _ hparams =>
    rw [(allots_bindParams hparams).rest]
    exact .refl _ _
  | @ends c c' built o ongoing answer hend =>
    obtain ⟨status, -, heq⟩ := record_eq c' o.sub answer
    rw [heq]
    exact (advances_conclude hend).grows

theorem grows_of_leads (hleads : Leads m happened m') :
    Grows m.compiler.graph.size m.compiler.graph m'.compiler.graph := by
  induction hleads with
  | here m => exact .refl _ _
  | step hstep _ ih =>
    have hfirst := grows_of_move (move_of_step hstep)
    exact hfirst.trans (ih.mono hfirst.extends'.size_le)

theorem declared_of_move (hmove : Move m happened m') (h : Coherent current m.ongoing m.compiler)
    (hd : m.compiler.definition? s = some d)
    {decl : Declaration} (hdecl : d.status = .declared decl) : m'.compiler.definition? s = some d := by
  cases hmove with
  | gives hnew => exact Quiet.definition? (.allots (allots_newVariable hnew)) hd
  | answers hquiet => exact hquiet.definition? hd
  | turns pending => exact hd
  | replies answer _ => exact hd
  | @refuses c c' s' d' next ongoing e hd' hundeclared hparams =>
    have hsame : c'.definitions = (c.withStatus s' .declaring).definitions := by rw [(allots_bindParams hparams).rest]
    exact (definition?_congr (definitions_restored hd' hundeclared hsame)).trans hd
  | @begins c c' s' d' next ongoing params hd' hundeclared hparams =>
    have hne := place_ne_of_status_ne hd hd' (by simp [hdecl, hundeclared])
    have hsame : c'.definitions = (c.withStatus s' .declaring).definitions := by rw [(allots_bindParams hparams).rest]
    exact (definition?_congr hsame).trans ((definition?_withStatus_of_ne hne).trans hd)
  | @ends c c' built o ongoing answer hend =>
    have hadvances := advances_conclude hend
    obtain ⟨status, -, heq⟩ := record_eq c' o.sub answer
    obtain ⟨d', hd', hdeclaring⟩ := h.noted o (List.mem_cons_self ..)
    have hne := place_ne_of_status_ne hd hd' (by simp [hdecl, hdeclaring])
    rw [heq, definition?_withStatus_of_ne hne, definition?_congr (by rw [hadvances.rest])]
    exact hd

/-- The entry of a declared subroutine is never replaced. -/
theorem declared_of_leads (hleads : Leads m happened m') (h : Coherent current m.ongoing m.compiler)
    (hd : m.compiler.definition? s = some d)
    {decl : Declaration} (hdecl : d.status = .declared decl) : m'.compiler.definition? s = some d := by
  induction hleads with
  | here m => exact hd
  | step hstep _ ih =>
    have hmove := move_of_step hstep
    exact ih (coherent_of_move hmove h) (declared_of_move hmove h hd hdecl)

/-! ### The states of a declaration -/

/-- The declaration that was made in one state is what a later state has. -/
structure Retains (s : Subroutine) (d : Definition σ) (decl : Declaration) (c c' : Compiler σ) : Prop where
  /-- The entry of the subroutine is the same. -/
  entry : c'.definition? s = some d
  /-- Whoever asks for the declaration gets this one, even where no body may be built at all. -/
  answered : ∀ depth, (declare depth s).run.run c' = some (.ok decl, c')
  /-- Its body is not built again. -/
  uninvoked : ∀ next ongoing, step ⟨c', .declare s next, ongoing⟩ = some (⟨c', next (.ok decl), ongoing⟩, [])
  /-- Control reaches the same blocks from its fragment. -/
  reaches : ∀ id, c'.graph.Reaches decl.fragment.entry id ↔ c.graph.Reaches decl.fragment.entry id
  /-- They are blocks of the graph, and have not changed. -/
  blocks : ∀ id, c.graph.Reaches decl.fragment.entry id → id.index < c.graph.size ∧
    c'.graph.block? id = c.graph.block? id

theorem run_declare_declared (depth : Nat) (hd : c.definition? s = some d) {decl : Declaration}
    (hdecl : d.status = .declared decl) : (declare depth s).run.run c = some (.ok decl, c) := by
  cases depth <;> simp only [declare, run_declareBy, hd, hdecl]

theorem run_declare_declaring (depth : Nat) (hd : c.definition? s = some d) (hdeclaring : d.status = .declaring) :
    (declare depth s).run.run c = some (.error (.declarationInProgress s.name), c) := by
  cases depth <;> simp only [declare, run_declareBy, hd, hdeclaring]

theorem coherent_of_create {key : Nat} {options : Options} {host : σ} (h : create key options host = .ok c) :
    Coherent none [] c := by
  obtain ⟨-, -, h⟩ := except_bind_eq_ok.1 h
  cases h
  exact ⟨rfl, by simp, fun i d hd => absurd hd (by simp), .nil⟩

theorem Coherent.idle (h : Coherent current [] c) : Steady.Idle c := fun i d hd hstatus => by
  obtain ⟨o, ho, -⟩ := h.only i d hd hstatus
  cases ho

/-- Follow a host from a new compiler on, through all that it asks for, and through the bodies that are built for it.
A declaration that has been made stays as it is; one that is being made is refused to those who ask for it again; and
when a request of the host itself has been answered or refused, no declaration is being made and no subroutine is being
lowered any more than before. -/
theorem states_of_declarations {key : Nat} {options : Options} {host : σ} {created : Compiler σ}
    (hcreate : create key options host = .ok created) {script : Builder σ} {past : List Event} {m : Moment σ}
    (hm : Leads ⟨created, .host script, []⟩ past m) :
    (∀ s d decl, m.compiler.definition? s = some d → d.status = .declared decl → ∀ later m', Leads m later m' →
      Retains s d decl m.compiler m'.compiler) ∧
    ((∀ o ∈ m.ongoing, ∃ d, m.compiler.definition? o.sub = some d ∧ d.status = .declaring) ∧
      ∀ s d, m.compiler.definition? s = some d → d.status = .declaring →
        (CompileError.declarationInProgress s.name).kind = .composition ∧ ∀ depth,
          (declare depth s).run.run m.compiler = some (.error (.declarationInProgress s.name), m.compiler)) ∧
    (m.ongoing = [] → Steady.Idle m.compiler ∧ m.compiler.current = created.current ∧
      (∀ depth s answer c', (declare depth s).run.run m.compiler = some (answer, c') →
        Steady.Idle c' ∧ c'.current = m.compiler.current) ∧
      ∀ e answer c', (lower e).run.run m.compiler = (answer, c') →
        Steady.Idle c' ∧ c'.current = m.compiler.current) := by
  have hcreated := coherent_of_create hcreate
  have hcoherent : Coherent none m.ongoing m.compiler := coherent_of_leads hm hcreated
  refine ⟨fun s d decl hd hdecl later m' hlater => ?_, ⟨hcoherent.noted, fun s d hd hdeclaring => ⟨rfl, fun depth =>
    run_declare_declaring depth hd hdeclaring⟩⟩, fun hongoing => ?_⟩
  · have hd' := declared_of_leads hlater hcoherent hd hdecl
    have hstart := (sound_of_create hcreate).keeps
    have hnone : ∀ decl ∈ created.declarations, decl.fragment.Resolved created.graph fun _ => True := by
      obtain ⟨-, -, h⟩ := except_bind_eq_ok.1 hcreate
      cases h
      exact fun decl hdecl => by cases hdecl
    have hholds := holds_of_leads enduring_resolved hm (.idle ⟨hstart, hnone⟩)
    have hresolved := (hholds.comes enduring_resolved).2 decl
      (mem_declarations.2 ⟨_, d, (definition?_eq_some hd).1, hdecl⟩)
    have hstays := hresolved.reaches_iff (grows_of_leads hlater)
    refine ⟨hd', fun depth => run_declare_declared depth hd' hdecl, fun next ongoing => ?_, fun id => (hstays id).1,
      fun id => (hstays id).2⟩
    simp only [step, request, hd', hdecl]
  · rw [hongoing] at hcoherent
    refine ⟨hcoherent.idle, hcoherent.current.trans hcreated.current.symm, fun depth s answer c' hrun => ?_,
      fun e answer c' hrun => ?_⟩
    · obtain ⟨happened, hleads⟩ := traces_declare depth hrun .afterDeclaring []
      have hcoherent' := coherent_of_leads hleads hcoherent
      exact ⟨hcoherent'.idle, hcoherent'.current.trans hcoherent.current.symm⟩
    · have hcoherent' := hcoherent.quiet (.lowers hrun (advances_lower hrun))
      exact ⟨hcoherent'.idle, hcoherent'.current.trans hcoherent.current.symm⟩

namespace Nested

def handle : Subroutine := ⟨0, ⟨0⟩, "f", [], .uint64⟩

/-- The body asks for its own declaration, and is built in spite of the answer. -/
def body : Body Unit := fun s _ => .declare s fun _ => .done (.int 7)

/-- The host ends with the body, or with the error. -/
def goOn : Except CompileError Declaration → Builder Unit
  | .ok decl => .done decl.body
  | .error e => .fail e

def script : Builder Unit := .define "f" [] .uint64 body fun s => .declare s goOn

def created : Compiler Unit := { key := 0, options := {}, slots := .empty 256, host := () }

/-- The body is being built. -/
def within : Moment Unit :=
  ⟨{ created with definitions := [⟨handle, body, .declaring⟩] }, .host (body handle []),
    [⟨handle, [], fun answer => .host (goOn answer)⟩]⟩

def declaration : Declaration := ⟨handle, .int 7, ⟨⟨0⟩, none⟩, []⟩

/-- The declaration has been made. -/
def after : Moment Unit where
  compiler :=
    { created with
      definitions := [⟨handle, body, .declared declaration⟩]
      graph := ⟨#[⟨[.int 7], .next ⟨1⟩⟩, ⟨[.retsub], .terminal⟩]⟩ }
  task := .host (.done (.int 7))

end Nested

open Nested in
/-- The host's own request begins the declaration, the body's is refused, and after that the declaration is there. -/
theorem states_of_declarations_nested :
    (declare 5 handle).run.run within.compiler = some (.error (.declarationInProgress "f"), within.compiler) ∧
      (declare 0 handle).run.run after.compiler = some (.ok declaration, after.compiler) ∧
        Steady.Idle after.compiler := by
  have hcreate : create 0 {} () = .ok created := rfl
  have hwithin : Leads ⟨created, .host script, []⟩ ([] ++ ([] ++ ([.invoked handle []] ++ []))) within :=
    .step rfl (.step rfl (.step rfl (.here _)))
  have hend : step ⟨within.compiler, .host (.done (.int 7)), within.ongoing⟩ = some (after, []) := by cbv
  have hafter : Leads within ([] ++ ([] ++ ([] ++ []))) after := .step rfl (.step rfl (.step hend (.here _)))
  obtain ⟨-, ⟨-, hrefused⟩, -⟩ := states_of_declarations hcreate hwithin
  obtain ⟨hretains, -, hidle⟩ := states_of_declarations hcreate (hwithin.trans hafter)
  refine ⟨(hrefused handle _ rfl rfl).2 5, ?_, (hidle rfl).1⟩
  exact (hretains handle _ declaration rfl rfl [] after (.here _)).answered 0

end Moment

end ScratchMachine
