import ScratchMachine.Proofs.Assembly
import ScratchMachine.Proofs.Moves
import ScratchMachine.Proofs.Resolution

/-!
# The subroutines of a compilation

Before a compilation ends it declares every subroutine that waits.  As long as no declaration is abandoned after others
were made on the way, every subroutine that is called in the program or in a subroutine has then been declared, and no
run of the assembled program comes upon a call of a subroutine that is not there.

* `Compiler.Steady.compile_ensures`: which calls there are in a compilation.
* `Compiler.no_dangling_call`: runs of the assembled program find every subroutine that they call.
-/

namespace ScratchMachine

open BlockGraph Fallible Declaring

namespace Compiler

variable {σ : Type} {c c' c'' : Compiler σ}

/-! ### Steady declarations -/

namespace Steady

variable {spared : SubroutineId → Bool}

/-- What is known if building a declaration fails in the steady way. -/
def Failed (spared : SubroutineId → Bool) (d : Definition σ) (c c' : Compiler σ) : Prop :=
  Proceeds (spared · = true) c c' ∧ (spared d.handle.id = true ∨ c'.declaredIds = c.declaredIds)

theorem build_ensures {declare : Subroutine → Declaring σ Declaration}
    (hdeclare : ∀ s, Safe (Proceeds (spared · = true)) (declare s)) (d : Definition σ)
    (hc : Proceeds (spared · = true) c c) :
    Declaring.Ensures (Steady.build spared (Compiler.build declare) d) c
      (fun decl c' => Proceeds (spared · = true) c c' ∧ BuiltFrom (Proceeds (spared · = true)) d c decl c')
      (Failed spared d c) := by
  refine Declaring.ensures_bind (Declaring.ensures_get ?_)
  refine Declaring.ensures_bind (Declaring.ensures_attempt ((build_runs (course_proceeds _) hdeclare hc d).imp
    (fun decl c' h => Declaring.ensures_pure ⟨h.1, h.2.2⟩) fun c' h e => ?_))
  refine Declaring.ensures_bind (Declaring.ensures_get ?_)
  dsimp only
  split
  · rename_i hspared
    rw [Bool.or_eq_true, beq_iff_eq] at hspared
    exact Declaring.ensures_throw ⟨h, hspared⟩
  · exact Declaring.ensures_tooDeep

/-- After a steady declaration the calls of the declared subroutine need not be excused any more. -/
theorem declareBy_ensures {build : Definition σ → Declaring σ Declaration}
    (hbuild : ∀ d (c : Compiler σ), Proceeds (spared · = true) c c → Declaring.Ensures (build d) c
      (fun decl c' => Proceeds (spared · = true) c c' ∧ BuiltFrom (Proceeds (spared · = true)) d c decl c')
      (Failed spared d c)) {s : Subroutine} (hc : c.Sound)
    (hresolved : c.Resolved fun id => spared id = true ∨ id = s.id) :
    Declaring.Ensures (declareBy build s) c (fun _ c' => Proceeds (spared · = true) c c' ∧ c'.Awaited s.id)
      fun c' => c.Resolved (spared · = true) → Proceeds (spared · = true) c c' := by
  have hself : c.Resolved (spared · = true) → Proceeds (spared · = true) c c :=
    fun h => ⟨hc.keeps, .of_eq (List.Subset.refl _) rfl, h⟩
  unfold declareBy
  refine Declaring.ensures_bind (Declaring.ensures_perform (definition_ensures.imp (fun d c₁ h => ?_) fun c' h => ?_))
  swap
  · exact h ▸ hself
  obtain ⟨rfl, hdef⟩ := h
  obtain ⟨hd, hhandle⟩ := definition?_eq_some hdef
  split
  · -- it was declared before
    rename_i hstatus
    have hawaited : c₁.Awaited s.id := .inr ⟨d, hd, by simp [hstatus]⟩
    refine Declaring.ensures_pure ⟨hself (hresolved.mono (.refl _ _) (fun _ h => h) ?_), hawaited⟩
    rintro id (hid | hid | rfl)
    · exact .inl hid
    · exact .inr hid
    · exact .inl hawaited
  · exact Declaring.ensures_throw hself
  · rename_i hundeclared
    refine Declaring.ensures_bind (setStatus_ensures ?_)
    have hkeeps₂ : c₁.Keeps (c₁.withStatus s .declaring) := keeps_withStatus hc (by simp)
    have hself₂ : Proceeds (spared · = true) (c₁.withStatus s .declaring) (c₁.withStatus s .declaring) :=
      ⟨hkeeps₂.1.keeps, .of_eq (List.Subset.refl _) rfl, hresolved.begin hd⟩
    refine Declaring.ensures_bind (Declaring.ensures_attempt ((hbuild d _ hself₂).imp (fun decl c₃ h₃ => ?_)
      fun c₃ h₃ e => ?_))
    · obtain ⟨hproceeds, hbuilt⟩ := h₃
      have hkeeps₃ := hkeeps₂.trans hproceeds.keeps
      obtain ⟨d', hd', -⟩ := hkeeps₃.2.handles _ d hd
      have hkeeps₄ := hkeeps₂.trans (enduring_keeps.declared hkeeps₂.1.keeps hproceeds.keeps (hbuilt.mono fun h => h.keeps) hhandle
        (hkeeps₃.2.defines s ⟨d, hdef⟩))
      refine Declaring.ensures_bind (setStatus_ensures (Declaring.ensures_pure ⟨⟨hkeeps₄, ?_, ?_⟩, ?_⟩))
      · exact hproceeds.follows.around hd hundeclared (by simp)
      · exact hproceeds.resolved.declared hbuilt.resolved
      · refine .inr ⟨{ d' with status := .declared decl }, ?_, by simp⟩
        rw [getElem?_withStatus, if_pos rfl, hd', Option.map_some]
    · obtain ⟨hproceeds, hreason⟩ := h₃
      have hkeeps₃ := hkeeps₂.trans hproceeds.keeps
      have hkeeps₄ : c₁.Keeps (c₃.withStatus s .undeclared) := hkeeps₃.trans (keeps_withStatus hkeeps₃.1 (by simp))
      have hfollows : c₁.Follows (c₃.withStatus s .undeclared) := hproceeds.follows.around hd hundeclared (by simp)
      refine Declaring.ensures_bind (setStatus_ensures (Declaring.ensures_throw fun hbefore => ⟨hkeeps₄, hfollows, ?_⟩))
      rcases hreason with hspared | hsame
      · exact hproceeds.resolved.abandon (hhandle ▸ hspared)
      · refine hbefore.abandon_of_none hfollows hkeeps₃.2.grows hkeeps₃.1 (hsame.trans ?_)
        rw [declaredIds, declarations_begin hd hundeclared, declaredIds]

theorem declare_ensures (depth : Nat) {s : Subroutine} (hc : c.Sound)
    (hresolved : c.Resolved fun id => spared id = true ∨ id = s.id) :
    Declaring.Ensures (declare spared depth s) c (fun _ c' => Proceeds (spared · = true) c c' ∧ c'.Awaited s.id)
      fun c' => c.Resolved (spared · = true) → Proceeds (spared · = true) c c' := by
  induction depth generalizing s c with
  | zero =>
    rw [declare]
    exact declareBy_ensures (fun _ _ _ => Declaring.ensures_tooDeep) hc hresolved
  | succ depth ih =>
    have hsafe : ∀ s, Safe (Proceeds (spared · = true)) (declare (σ := σ) spared depth s) := fun s c h =>
      (ih h.keeps.1 (h.resolved.mono (.refl _ _) (fun _ hdecl => hdecl) fun _ => Or.imp_right .inl)).imp
        (fun _ _ h' => h'.1) fun _ h' => h' h.resolved
    rw [declare]
    exact declareBy_ensures (fun d _ h => build_ensures hsafe d h) hc hresolved

/-! ### Compilations -/

/-- No declaration is being made. -/
def Idle (c : Compiler σ) : Prop := ∀ (i : Nat) (d : Definition σ), c.definitions[i]? = some d → d.status ≠ .declaring

theorem Idle.follows (h : Idle c) (hfollows : c.Follows c') : Idle c' := by
  intro i d' hd' hbegun
  obtain ⟨d, hd, hbegun'⟩ := hfollows.begun i d' hd' hbegun
  exact h i d hd hbegun'

/-- Between the declarations of a compilation whose main program was lowered in another state. -/
structure Working (spared : SubroutineId → Bool) (lowered c : Compiler σ) : Prop where
  keeps : lowered.Keeps c
  resolved : c.Resolved (spared · = true)
  idle : Idle c
  called : ∀ id, lowered.Awaited id → c.Awaited id ∨ spared id = true

/-- When no subroutine waits any more, those called in declarations and in the main program are declared. -/
theorem declarePending_ensures {lowered : Compiler σ} (depth rounds : Nat) (h : Working spared lowered c) :
    Declaring.Ensures (declarePending spared depth rounds) c (fun _ c' => Working spared lowered c' ∧ c'.pending = [])
      fun _ => True := by
  induction rounds generalizing c with
  | zero =>
    rw [declarePending]
    refine Declaring.ensures_bind (Declaring.ensures_get ?_)
    split
    · rename_i hpending
      exact Declaring.ensures_pure ⟨h, hpending⟩
    · exact Declaring.ensures_tooDeep
  | succ rounds ih =>
    rw [declarePending]
    refine Declaring.ensures_bind (Declaring.ensures_get ?_)
    split
    · rename_i hpending
      exact Declaring.ensures_pure ⟨h, hpending⟩
    rename_i s rest hpending
    refine Declaring.ensures_bind (Declaring.ensures_modify ?_)
    -- the subroutine taken from those that wait is excused until it has been declared
    have hknown : ∀ id, c.Awaited id ∨ spared id = true →
        Awaited { c with pending := rest } id ∨ spared id = true ∨ id = s.id := by
      rintro id ((⟨s', hs', rfl⟩ | hdefined) | hid)
      · rw [hpending] at hs'
        rcases List.mem_cons.1 hs' with rfl | hs'
        · exact .inr (.inr rfl)
        · exact .inl (.inl ⟨s', hs', rfl⟩)
      · exact .inl (.inr hdefined)
      · exact .inr (.inl hid)
    have hkeeps : c.Keeps { c with pending := rest } := h.keeps.1.keeps_of_eq rfl rfl
    have hresolved : Resolved (fun id => spared id = true ∨ id = s.id) { c with pending := rest } :=
      h.resolved.mono (.refl _ _) (fun _ hdecl => hdecl) hknown
    refine Declaring.ensures_bind (Declaring.ensures_bind ((declare_ensures depth hkeeps.1 hresolved).imp
      (fun _ c₂ h₂ => Declaring.ensures_pure ?_) fun _ _ => trivial))
    obtain ⟨hproceeds, hawaited⟩ := h₂
    refine ih ⟨(h.keeps.trans hkeeps).trans hproceeds.keeps, hproceeds.resolved, ?_, fun id hid => ?_⟩
    · exact Idle.follows (c := { c with pending := rest }) h.idle hproceeds.follows
    · rcases hknown id (h.called id hid) with hid | hid | rfl
      · exact .inl (hproceeds.follows.awaited hid)
      · exact .inr hid
      · exact .inl hawaited

/-- At the end a subroutine that is awaited is declared. -/
theorem declared_of_awaited (hc : c.Sound) (hidle : Idle c) (hpending : c.pending = []) {id : SubroutineId}
    (h : c.Awaited id) : ∃ d ∈ c.declarations, d.subroutine.id = id := by
  obtain ⟨s, hs, -⟩ | ⟨d, hd, hstatus⟩ := h
  · rw [hpending] at hs
    cases hs
  · cases hdecl : d.status with
    | undeclared => exact absurd hdecl hstatus
    | declaring => exact absurd hdecl (hidle _ d hd)
    | declared decl =>
      obtain ⟨hplace, hsub, -⟩ := hc _ d decl hd hdecl
      exact ⟨decl, mem_declarations.2 ⟨_, d, hd, hdecl⟩, id_eq_of_toNat (hsub ▸ hplace)⟩

end Steady

end Compiler

/-- The fragments of the main program and of the subroutines. -/
def Compilation.fragments (c : Compilation) : List Fragment := c.main :: c.declarations.map (·.fragment)

/-- Control can reach a call of the subroutine from the entry of the main program, or from that of a subroutine. -/
def Compilation.Calls (c : Compilation) (callee : SubroutineId) : Prop :=
  ∃ f ∈ c.fragments, ∃ id b, c.graph.Reaches f.entry id ∧ c.graph.block? id = some b ∧ .callsub callee ∈ b.ops

namespace Compiler

variable {σ : Type} {c c' c'' : Compiler σ} {spared : SubroutineId → Bool}

namespace Steady

/-- All calls in a compilation are of declared subroutines, but for those excused and those made by operation nodes. -/
theorem compile_ensures (hc : Proceeds (spared · = true) c c) (hidle : Idle c) (limit : Nat) (root : Expr) :
    Declaring.Ensures (compile spared limit root) c
      (fun compilation _ => ∀ callee, compilation.Calls callee →
        ((∃ d ∈ compilation.declarations, d.subroutine.id = callee) ∨ spared callee = true) ∨
          root.CallsRaw callee ∨ ∃ d ∈ compilation.declarations, d.body.CallsRaw callee)
      fun _ => True := by
  refine Declaring.ensures_bind (Declaring.ensures_modify ?_)
  have hself : Proceeds (spared · = true) c { c with current := none } := (course_proceeds _).current none hc
  have hlower := (lower_ensures root { c with current := none }).and
    (lower_encloses root.owns_callsRaw { c with current := none })
  refine Declaring.ensures_bind (Declaring.ensures_perform ((hlower.and (ensures_run _ _)).imp (fun main c₂ h₂ => ?_)
    fun _ _ => trivial))
  obtain ⟨⟨hlowered, hencloses, hentry⟩, hrun⟩ := h₂
  have hproceeds₂ := (course_proceeds _).lower ((course_proceeds _).stays hself) hrun hlowered.advances
  have hidle₂ : Idle c₂ := (hidle.follows hself.follows).follows hproceeds₂.follows
  have hworking : Working spared c₂ c₂ := ⟨hproceeds₂.keeps.1.keeps, hproceeds₂.resolved, hidle₂, fun _ => .inl⟩
  refine Declaring.ensures_bind ((declarePending_ensures limit limit hworking).imp (fun _ c₃ h₃ => ?_)
    fun _ _ => trivial)
  obtain ⟨hworking₃, hpending⟩ := h₃
  refine Declaring.ensures_bind (Declaring.ensures_get (Declaring.ensures_pure ?_))
  have hsound := hworking₃.keeps.1
  have hdeclared : ∀ id, c₃.Awaited id ∨ spared id = true →
      (∃ d ∈ c₃.declarations, d.subroutine.id = id) ∨ spared id = true := fun id =>
    Or.imp_left (declared_of_awaited hsound hworking₃.idle hpending)
  have hmain : main.Resolved c₃.graph fun id => (c₃.Awaited id ∨ spared id = true) ∨ root.CallsRaw id := by
    have hmain₂ : main.Resolved c₂.graph fun id => c₂.Awaited id ∨ root.CallsRaw id := by
      refine ⟨_, _, hentry, le_refl _, hencloses.imp fun op hop id hid => ?_⟩
      rcases hop with hown | ⟨id', hid', hawaited⟩
      · exact .inr (hown id hid)
      · cases hid.symm.trans hid'
        exact .inl hawaited
    exact hmain₂.mono hworking₃.keeps.2.grows fun id => Or.imp_left (hworking₃.called id)
  rintro callee ⟨f, hf, id, b, hreach, hb, hcall⟩
  rcases List.mem_cons.1 hf with rfl | hf
  · exact (hmain.reaches hreach hb hcall).imp (hdeclared callee) .inl
  · obtain ⟨d, hd, rfl⟩ := List.mem_map.1 hf
    exact ((hworking₃.resolved d hd).reaches hreach hb hcall).imp (hdeclared callee) fun hraw => .inr ⟨d, hd, hraw⟩

/-- In every steady history the calls of declarations are resolved, and between requests no declaration is being made. -/
theorem History.proceeds (h : History spared c) : Proceeds (spared · = true) c c ∧ Idle c := by
  have hsafe : ∀ {α : Type} {x : Declaring σ α} {c c' : Compiler σ} {answer : Except CompileError α},
      Safe (Proceeds (spared · = true)) x → x.run.run c = some (answer, c') →
        Proceeds (spared · = true) c c ∧ Idle c → Proceeds (spared · = true) c' c' ∧ Idle c' := by
    intro α x c c' answer hx hrun hc
    have hproceeds := hx.holds hc.1 hrun
    exact ⟨(course_proceeds _).stays hproceeds, hc.2.follows hproceeds.follows⟩
  induction h with
  | @create key options host c hcreate =>
    obtain ⟨-, -, h⟩ := except_bind_eq_ok.1 hcreate
    cases h
    refine ⟨⟨(sound_of_no_definitions rfl).keeps, .of_eq (List.Subset.refl _) rfl, fun decl hdecl => ?_⟩, fun i d hd => ?_⟩
    · cases hdecl
    · cases hd
  | newVariable type request target _ ih =>
    exact hsafe (safe_takesSlots (course_proceeds _) (takesSlots_newVariable type request target)) rfl ih
  | define name params returns body _ ih =>
    have hproceeds := (course_proceeds (spared · = true)).define name params returns body ih.1
    exact ⟨(course_proceeds _).stays hproceeds, ih.2.follows hproceeds.follows⟩
  | lower e _ ih => exact hsafe (safe_perform_lower (course_proceeds _) e) rfl ih
  | declare _ hdeclare ih =>
    refine hsafe (fun c h => ?_) hdeclare ih
    exact (declare_ensures _ h.keeps.1 (h.resolved.mono (.refl _ _) (fun _ hdecl => hdecl)
      fun _ => Or.imp_right .inl)).imp (fun _ _ h' => h'.1) fun _ h' => h' h.resolved

end Steady

/-! ### Assembled programs -/

section Assembled

variable {root : Expr} {compilation : Compilation} {p : Program}

/-- Each code object of a program is laid out from the main program or from a subroutine. -/
theorem exists_fragment_of_mem_code (hassemble : compilation.assemble = .ok p) {code : CodeObject} (hcode : code ∈ p.code) :
    ∃ f ∈ compilation.fragments, ∃ ops, compilation.graph.linearize f.entry = .ok ops ∧ code.ops = ops.toArray := by
  obtain ⟨main, hmain, hassemble⟩ := except_bind_eq_ok.1 hassemble
  obtain ⟨subs, hsubs, hassemble⟩ := except_bind_eq_ok.1 hassemble
  cases hassemble
  rcases List.mem_cons.1 hcode with rfl | hcode
  · exact ⟨_, List.mem_cons_self .., main, hmain, rfl⟩
  · obtain ⟨d, hd, hobject⟩ := mem_of_mapM hsubs hcode
    obtain ⟨ops, hops, hobject⟩ := except_bind_eq_ok.1 hobject
    cases hobject
    exact ⟨_, List.mem_cons_of_mem _ (List.mem_map_of_mem hd), ops, hops, rfl⟩

theorem calls_of_mem_code (hassemble : compilation.assemble = .ok p) {code : CodeObject} (hcode : code ∈ p.code)
    {callee : SubroutineId} (hcall : .callsub callee ∈ code.ops) : compilation.Calls callee := by
  obtain ⟨f, hf, ops, hops, heq⟩ := exists_fragment_of_mem_code hassemble hcode
  rw [heq, List.mem_toArray] at hcall
  rcases mem_linearize hops hcall with hjump | ⟨id, b, hreach, hb, hmem⟩
  · cases hjump
  · exact ⟨f, hf, id, b, hreach, hb, hmem⟩

/-- If a run of the assembled program comes upon a call of a subroutine that is not there, this is one of the calls in
the compilation, and the subroutine has no declaration. -/
theorem calls_of_undefined (hcompiled : Compiled root compilation) (hassemble : compilation.assemble = .ok p)
    {m : Machine} {n : Nat} {error : RuntimeError} {memory : Memory} {callee : SubroutineId}
    (hended : (m.start p).after m p n = .ended (.error error) memory)
    (hfault : error.fault = .undefinedSubroutine callee) :
    compilation.Calls callee ∧ ∀ d ∈ compilation.declarations, d.subroutine.id ≠ callee := by
  have hstart : ∃ e, m.start p = .running e := by
    cases hstart : m.start p with
    | running e => exact ⟨e, rfl⟩
    | ended outcome memory' =>
      rw [hstart, Progress.after_ended] at hended
      cases hended
      exact absurd hfault (m.start_ne_undefined p callee hstart)
  obtain ⟨e₀, hstart⟩ := hstart
  rw [hstart] at hended
  obtain ⟨k, e, -, hafter, hstep⟩ := Progress.step_of_after_ended hended
  rw [← hstart] at hafter
  obtain ⟨hnext, hnone⟩ := m.step_undefined hstep hfault
  refine ⟨calls_of_mem_code hassemble (p.code_of_after hafter _ (List.mem_cons_self ..)) (Array.mem_of_getElem? hnext), ?_⟩
  rintro d hd rfl
  have hfound := hcompiled.subroutine?_eq hassemble d.subroutine.id
  cases hdecl : compilation.declaration? d.subroutine.id with
  | none =>
    have hne := List.find?_eq_none.1 hdecl d hd
    simp at hne
  | some d' =>
    rw [hdecl] at hfound
    obtain ⟨ops, -, hsome⟩ := hfound
    cases hnone.symm.trans hsome

/-- If no declaration was abandoned after others were made on the way, but those of spared subroutines, and compiling
succeeds in the same manner, then all calls in the compilation are of subroutines that it contains, and no run of the
assembled program fails for want of a subroutine; or else it is a spared one. -/
theorem no_dangling_call (hc : Steady.History spared c) {limit : Nat}
    (hcompile : (Steady.compile spared limit root).run.run c = some (.ok compilation, c'))
    (hroot : root.Everywhere Expr.NoRawCall)
    (hbodies : ∀ d ∈ compilation.declarations, d.body.Everywhere Expr.NoRawCall) :
    (compile limit root).run.run c = some (.ok compilation, c') ∧
      (∀ callee, compilation.Calls callee →
        (∃ d ∈ compilation.declarations, d.subroutine.id = callee) ∨ spared callee = true) ∧
      ∀ p, compilation.assemble = .ok p → ∀ (m : Machine) (n : Nat) (error : RuntimeError) (memory : Memory)
        (callee : SubroutineId), (m.start p).after m p n = .ended (.error error) memory →
          error.fault = .undefinedSubroutine callee → spared callee = true := by
  obtain ⟨hproceeds, hidle⟩ := hc.proceeds
  have hcompile' := Steady.compile_refines spared limit root c _ hcompile
  have hcompiled := (compile_ensures hc.reachable.sound limit root).of_ok hcompile'
  have hcalls : ∀ callee, compilation.Calls callee →
      (∃ d ∈ compilation.declarations, d.subroutine.id = callee) ∨ spared callee = true := by
    intro callee hcallee
    rcases (Steady.compile_ensures hproceeds hidle limit root).of_ok hcompile callee hcallee with hknown | hraw | hraw
    · exact hknown
    · exact absurd hraw (Expr.not_callsRaw hroot callee)
    · obtain ⟨d, hd, hraw⟩ := hraw
      exact absurd hraw (Expr.not_callsRaw (hbodies d hd) callee)
  refine ⟨hcompile', hcalls, fun p hassemble m n error memory callee hended hfault => ?_⟩
  obtain ⟨hcallee, hmissing⟩ := calls_of_undefined hcompiled hassemble hended hfault
  refine (hcalls callee hcallee).resolve_left ?_
  rintro ⟨d, hd, hid⟩
  exact hmissing d hd hid

end Assembled

/-! ### An abandoned declaration -/

namespace Abandoned

def inner : Subroutine := ⟨0, ⟨0⟩, "inner", [], .uint64⟩

def outer : Subroutine := ⟨0, ⟨1⟩, "outer", [], .uint64⟩

def top : Subroutine := ⟨0, ⟨2⟩, "top", [], .uint64⟩

/-- The body calls the subroutine whose declaration is under way. -/
def innerBody : Body Unit := fun _ _ => .done (.call outer [])

/-- The declaration fails because the last subroutine is being declared, but not before the first one is declared. -/
def outerBody : Body Unit := fun _ _ => .declare inner fun _ => .declare top (.orFail fun _ => .done (.int 1))

/-- The body is built in spite of the failure. -/
def topBody : Body Unit := fun _ _ => .declare outer fun _ => .done (.call inner [])

def created : Compiler Unit := { key := 0, options := {}, slots := .empty 256, host := () }

def compiler : Compiler Unit :=
  (define (define (define created "inner" [] .uint64 innerBody).2 "outer" [] .uint64 outerBody).2 "top" [] .uint64
    topBody).2

def graph : BlockGraph := ⟨#[⟨[.callsub ⟨2⟩], .opened⟩, ⟨[.callsub ⟨1⟩], .next ⟨2⟩⟩, ⟨[.retsub], .terminal⟩,
  ⟨[.callsub ⟨0⟩], .next ⟨4⟩⟩, ⟨[.retsub], .terminal⟩]⟩

def innerDeclaration : Declaration := ⟨inner, .call outer [], ⟨⟨1⟩, none⟩, []⟩

def topDeclaration : Declaration := ⟨top, .call inner [], ⟨⟨3⟩, none⟩, []⟩

def compilation : Compilation where
  options := {}
  graph := graph
  main := ⟨⟨0⟩, some ⟨0⟩⟩
  declarations := [innerDeclaration, topDeclaration]

def program : Program where
  code := [⟨"main", #[.callsub ⟨2⟩]⟩, ⟨"inner", #[.callsub ⟨1⟩, .retsub]⟩, ⟨"top", #[.callsub ⟨0⟩, .retsub]⟩]
  subroutines := .ofList [(⟨0⟩, 1), (⟨2⟩, 2)]

def machine : Machine := { slotCount := 0 }

def abandoned (id : SubroutineId) : Bool := id == outer.id

theorem history : Steady.History abandoned compiler := by
  have hcreate : create 0 {} () = .ok created := rfl
  exact .define _ _ _ _ (.define _ _ _ _ (.define _ _ _ _ (.create hcreate)))

theorem compile_top : (Steady.compile abandoned 4 (.call top [])).run.run compiler = some (.ok compilation,
    { compiler with graph, definitions := [⟨inner, innerBody, .declared innerDeclaration⟩, ⟨outer, outerBody, .undeclared⟩,
        ⟨top, topBody, .declared topDeclaration⟩] }) := by
  cbv

theorem assemble_compilation : compilation.assemble = .ok program := by
  cbv

end Abandoned

open Abandoned in
/-- The run of the program fails at a call of the subroutine whose declaration was abandoned; all others that are
called are there. -/
theorem no_dangling_call_abandoned :
    (machine.start program).after machine program 3 =
        .ended (.error ⟨.undefinedSubroutine outer.id, ["inner", "top", "main"]⟩) (.blank 0) ∧
      ∀ callee, compilation.Calls callee → callee ≠ outer.id →
        ∃ d ∈ compilation.declarations, d.subroutine.id = callee := by
  refine ⟨by cbv, fun callee hcallee hne => ?_⟩
  have hroot : (Expr.call top []).Everywhere Expr.NoRawCall := .intro trivial (by simp [Expr.parts])
  have hbodies : ∀ d ∈ compilation.declarations, d.body.Everywhere Expr.NoRawCall := by
    intro d hd
    simp only [compilation, List.mem_cons, List.not_mem_nil, or_false] at hd
    rcases hd with rfl | rfl
    · exact .intro trivial (by simp [innerDeclaration, Expr.parts])
    · exact .intro trivial (by simp [topDeclaration, Expr.parts])
  obtain ⟨-, hcalls, -⟩ := no_dangling_call history compile_top hroot hbodies
  refine (hcalls callee hcallee).resolve_right fun hspared => hne ?_
  simpa [abandoned] using hspared

end Compiler

end ScratchMachine
