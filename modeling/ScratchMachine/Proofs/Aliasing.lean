import ScratchMachine.Proofs.Assembly
import ScratchMachine.Proofs.Detours
import ScratchMachine.Proofs.StaticCheck

/-!
# Aliases

An alias owns no storage.  It goes to the storage of its target by the number of the slot, which it puts on the stack,
whereas the target is accessed by that number directly.  No program can tell which of the two it uses, except by
values that are left on the stack unnoticed.

* `Variable.SameAccess`: the same access by one variable and by another.
* `Machine.Repeats`: the runs of one program come to what those of another come to.
* `Compiler.alias_transparent`: accesses to a variable may be replaced by accesses to its alias.
-/

namespace ScratchMachine

open Behaviour Fallible Relation

/-! ### Values that are what they seem -/

namespace Expr

/-- Whether the expression reads a slot but has no type, as the read of a variable without a type does. -/
def readsUntyped : Expr → Bool
  | op (.load _) _ .none _ | op .loads _ .none _ => true
  | _ => false

/-- Control gets past the expression, and it is no read without a type. -/
def Plain (e : Expr) : Prop := e.alwaysReturns = false ∧ e.readsUntyped = false

/-- Where all that is built is plain, no type understates. -/
theorem Built.honest {e : Expr} (h : e.Built) (hplain : e.Everywhere Plain) : e.Honest := by
  have hofOp : ∀ {o : Operation} {args : List Expr} {type : ValueType}, (ofOp o args type).understates = false →
      (∀ a ∈ args, a.Honest) → (ofOp o args type).Honest := fun hhere hargs => .intro hhere hargs
  induction h with
  | int n => exact .intro rfl (by simp [parts])
  | bytes b => exact .intro rfl (by simp [parts])
  | binary _ _ _ _ _ iha ihb =>
    have ha := iha (hplain.part (.head _))
    have hb := ihb (hplain.part (.tail _ (.head _)))
    exact hofOp rfl (by simp [ha, hb])
  | not _ _ ih => exact hofOp rfl (by simpa using ih (hplain.part (.head _)))
  | pop _ _ ih => exact hofOp rfl (by simpa using ih (hplain.part (.head _)))
  | err => exact hofOp rfl (by simp)
  | @load v _ _ ih =>
    have hread := hplain.here.2
    unfold Variable.load at hplain hread ⊢
    split at hplain
    all_goals
      have htype : v.type ≠ .none := fun hnone => by simp_all [ofOp, Expr.andThen, readsUntyped]
      refine hofOp (by simp [ofOp, understates, htype]) ?_
    · simp
    · simpa using ih (hplain.part (.head _))
  | store hstore _ _ _ _ ihindex ihvalue =>
    obtain ⟨-, -, hstore⟩ := except_bind_eq_ok.1 hstore
    split at hstore
    · cases hstore
      exact hofOp rfl (by simpa using ihvalue (hplain.part (.head _)))
    · cases hstore
      have hindex := ihindex (hplain.part (.head _))
      have hvalue := ihvalue (hplain.part (.tail _ (.head _)))
      exact hofOp rfl (by simp [hindex, hvalue])
  | seq _ ih => exact .intro rfl fun e he => ih e he (hplain.part he)
  | ifThen _ _ _ ihcond ihbody =>
    have hcond := ihcond (hplain.part (.head _))
    have hbody := ihbody (hplain.part (.tail _ (.head _)))
    exact .intro rfl (by simp [parts, hcond, hbody])
  | @ifElse cond yes no _ _ _ _ ihcond ihyes ihno =>
    have hno := hplain.part (q := no) (by simp [parts])
    have hgoes := hno.here.1
    refine .intro (by simp [understates, hgoes]) ?_
    simp [parts, ihcond (hplain.part (.head _)), ihyes (hplain.part (.tail _ (.head _))), ihno hno]
  | ret _ ih => exact .intro rfl (by simpa [parts] using ih (hplain.part (.head _)))
  | retNothing => exact .intro rfl (by simp [parts])
  | call _ _ ih =>
    refine .intro rfl fun e he => ?_
    obtain ⟨a, ha, rfl⟩ := List.mem_map.1 he
    exact ih a ha (hplain.part he)

end Expr

/-! ### Accesses -/

namespace Variable

/-- The same access by way of one variable and of another: to the number of its slot, to its value, or to set it to a
value of which every type is right. -/
inductive SameAccess (v w : Variable) : Expr → Expr → Prop
  | index : SameAccess v w v.index w.index
  | load : SameAccess v w v.load w.load
  | store {value e e' : Expr} : value.Honest → v.store value = .ok e → w.store value = .ok e' → SameAccess v w e e'

/-- An access by way of an alias is a detour, or nothing new. -/
theorem SameAccess.detour_or_eq {v a : Variable} {e e' : Expr} (h : v.SameAccess a e e') (hv : v.isAlias = false)
    (ha : a = ⟨v.type, v.location, some v.type⟩) : Expr.Detour e e' ∨ e = e' := by
  subst ha
  obtain ⟨type, location, target⟩ := v
  have hindex : (⟨type, location, some type⟩ : Variable).index = location.indexExpr := rfl
  have hshared : (⟨type, location, some type⟩ : Variable).ownSlot? = none := rfl
  have hown : (⟨type, location, target⟩ : Variable).ownSlot? = location.index? := by
    rw [ownSlot?, hv]
    rfl
  cases h with
  | index => exact .inr rfl
  | load =>
    rw [Variable.load, Variable.load, hown, hshared]
    cases location with
    | pooled slot | fixed slot => exact .inl (.load slot type)
    | computed index => exact .inr rfl
  | store hhonest hstore hstore' =>
    obtain ⟨-, -, hstore⟩ := except_bind_eq_ok.1 hstore
    obtain ⟨-, -, hstore'⟩ := except_bind_eq_ok.1 hstore'
    rw [hown] at hstore
    rw [hshared] at hstore'
    cases hstore'
    cases location with
    | pooled slot | fixed slot =>
      cases hstore
      exact .inl (.store hhonest)
    | computed index =>
      cases hstore
      exact .inr rfl

end Variable

/-! ### Runs of main programs -/

/-- A program passes the static check, and its main code object behaves in a given way. -/
def Program.Performs (p : Program) (b : Behaviour) : Prop :=
  ∃ main, p.main? = some main ∧ main.name = "main" ∧ checkHeight 0 main.ops.toList = .ok () ∧ main.Runs p.calls 0 = b

namespace Machine

open Progress Compiler

/-- What a run of the first program comes to, if no limit ends it, a run of the second comes to as well, with the same
scratch space, unless a limit ends that. -/
def Repeats (m : Machine) (p p' : Program) : Prop :=
  ∀ n outcome mem, (m.start p).after m p n = .ended outcome mem → ¬ ((m.start p).after m p n).Limited →
    (m.start p').Leads m p' fun r => ∃ mem', r = .ended outcome mem' ∧ mem'.scratch = mem.scratch

variable {m : Machine} {p p' : Program} {b b' : Behaviour}

/-- A run that starts at all starts with the main code object. -/
theorem start_cases (hp : p.Performs b) :
    (m.start p).Limited ∨ ∃ main : CodeObject, main.name = "main" ∧ main.Runs p.calls 0 = b ∧
      m.start p = .running ⟨⟨main, 0⟩, [], .blank m.slotCount, 0⟩ := by
  obtain ⟨main, hmain, hname, hcheck, hruns⟩ := hp
  have hstart : m.start p = m.enter main [] (.blank m.slotCount) 0 := by
    rw [Machine.start, hmain]
    dsimp only
    rw [hcheck]
  rw [hstart]
  exact (m.enter_cases main [] _ 0).imp_right fun henter => ⟨main, hname, hruns, henter⟩

theorem leads_of_performs (hp : p.Performs b) {f : Flow} {mem : Memory} (hb : b (.blank m.slotCount) f mem) :
    (m.start p).Leads m p fun r => r = .ended (f.outcome mem) mem := by
  rcases start_cases hp with hlimited | ⟨main, hname, hruns, hstart⟩
  · exact .limit hlimited
  · rw [hstart]
    rw [← hruns] at hb
    refine (CodeObject.leads_of_runs hb [] 0).trans ?_
    rintro r ⟨steps, rfl⟩
    exact .here (departing_main hname f mem steps)

theorem performs_of_ended (hp : p.Performs b) {n : Nat} {outcome : Outcome} {mem : Memory}
    (hended : (m.start p).after m p n = .ended outcome mem) (hlim : ¬ ((m.start p).after m p n).Limited) :
    ∃ f, b (.blank m.slotCount) f mem ∧ outcome = f.outcome mem := by
  rcases start_cases (m := m) hp with hlimited | ⟨main, hname, hruns, hstart⟩
  · exact absurd (limited_after hlimited n) hlim
  · rw [hstart] at hended hlim
    have hover : ((running ⟨⟨main, 0⟩, [], .blank m.slotCount, 0⟩).after m p n).Surfaced 0 := by
      rw [hended]
      trivial
    obtain ⟨k, f, mem', steps, hk, hb, hafter⟩ := CodeObject.runs_of_surfaced hover hlim
    rw [hruns] at hb
    rw [departing_main hname] at hafter
    obtain ⟨rfl, rfl⟩ : outcome = f.outcome mem' ∧ mem = mem' := by
      have hsame := hended.symm.trans (after_of_ended hafter hk)
      cases hsame
      exact ⟨rfl, rfl⟩
    exact ⟨f, hb, rfl⟩

/-- How a program ends depends on the memory only past its last operation. -/
theorem outcome_eq {f : Flow} {mem mem' : Memory} (h : f = .done → mem' = mem) : f.outcome mem' = f.outcome mem := by
  cases f with
  | done => rw [h rfl]
  | leave | halt | fault => rfl

/-- A program repeats one whose behaviour its own mirrors. -/
theorem repeats_of_mirrors (hp : p.Performs b) (hp' : p'.Performs b') (hmirrors : b.Mirrors b') : m.Repeats p p' := by
  intro n outcome mem hended hlim
  obtain ⟨f, hb, rfl⟩ := performs_of_ended hp hended hlim
  obtain ⟨mem', hb', hscratch, hdone⟩ := hmirrors _ f mem hb
  refine (leads_of_performs hp' hb').trans ?_
  rintro r rfl
  exact .here ⟨mem', by rw [outcome_eq hdone], hscratch⟩

end Machine

namespace Compiler

variable {σ : Type} {c c' : Compiler σ} {root root' : Expr} {v a : Variable}

/-! ### Compiled trees without calls -/

theorem Lowerable.of_compile {limit : Nat} {compilation : Compilation} (hc : c.Sound)
    (hfits : root.Everywhere Expr.FitsStack) (hfree : root.CallFree)
    (hcompile : (compile limit root).run.run c = some (.ok compilation, c')) :
    Lowerable { c with current := none } root := by
  obtain ⟨c₁, hlower, -⟩ := (compile_main hc limit root).of_ok hcompile
  exact ⟨hfits, hfree, (lower_isOk_iff (Expr.regular_of_fitsStack hfits).candid _).1 ⟨_, c₁, hlower⟩⟩

/-- Lowering such a tree succeeds, and changes nothing but the graph. -/
theorem Lowerable.lower_isOk (h : c.Lowerable root) :
    ∃ main graph, (lower root).run.run c = (.ok main, { c with graph }) := by
  have hcandid := (Expr.regular_of_fitsStack h.fits).candid
  obtain ⟨main, c₁, hlower⟩ := (lower_isOk_iff hcandid c).2 h.accepted
  have hrules := (lower_follows root c).of_ok hlower
  have hrest := hrules.rendered.advances.rest
  rw [hrules.pending_eq h.free] at hrest
  exact ⟨main, c₁.graph, hrest ▸ hlower⟩

/-- There is nothing to declare if nothing waits. -/
theorem declarePending_of_nil (hpending : c.pending = []) (depth rounds : Nat) :
    (declarePending depth rounds).run.run c = some (.ok (), c) := by
  have hget : (get : Declaring σ (Compiler σ)).run.run c = some (.ok c, c) := rfl
  cases rounds with
  | zero | succ =>
    rw [declarePending, Declaring.run_bind, hget]
    dsimp only
    rw [hpending]
    rfl

/-- If no subroutine waits to be declared, then such a tree makes a compilation. -/
theorem Lowerable.compile_isOk (h : Lowerable { c with current := none } root) (hpending : c.pending = [])
    (limit : Nat) : ∃ compilation c', (compile limit root).run.run c = some (.ok compilation, c') := by
  obtain ⟨main, graph, hlower⟩ := h.lower_isOk
  let c₁ : Compiler σ := { c with current := none, graph }
  have hbegin : (modify ({ · with current := none }) : Declaring σ Unit).run.run c =
      some (.ok (), { c with current := none }) := rfl
  have hmain : (Declaring.perform (lower root)).run.run { c with current := none } = some (.ok main, c₁) :=
    congrArg some hlower
  have hdeclare : (declarePending limit limit).run.run c₁ = some (.ok (), c₁) :=
    declarePending_of_nil (show c₁.pending = [] from hpending) limit limit
  refine ⟨⟨c₁.options, c₁.graph, main, c₁.declarations⟩, c₁, ?_⟩
  rw [compile, Declaring.run_bind, hbegin]
  dsimp only
  rw [Declaring.run_bind, hmain]
  dsimp only
  rw [Declaring.run_bind, hdeclare]
  rfl

/-- A compiled and assembled tree without calls does what its evaluation does. -/
theorem Lowerable.performs {limit : Nat} {compilation : Compilation} {p : Program} (hc : c.Sound)
    (h : Lowerable { c with current := none } root)
    (hcompile : (compile limit root).run.run c = some (.ok compilation, c'))
    (hassemble : compilation.assemble = .ok p) : p.Performs (root.behaviour (fun _ => never) false) := by
  obtain ⟨c₁, hlower, hgrows⟩ := (compile_main hc limit root).of_ok hcompile
  have hlowered := (lower_ensures root _).of_ok hlower
  have hopen : ∀ x, compilation.main.exit = some x → compilation.graph.IsOpen x := by
    intro x hx
    obtain ⟨-, b, hb, hexit⟩ := hlowered.isOpen x hx
    exact ⟨b, (hgrows.keeps x (BlockGraph.index_lt_size hb)).trans hb, hexit⟩
  obtain ⟨hwalks, hwell⟩ :=
    (hlowered.means (Expr.regular_of_fitsStack h.fits) compilation.graph hgrows.extends').walks hopen
  obtain ⟨ops, hops, hassemble⟩ := except_bind_eq_ok.1 hassemble
  obtain ⟨subs, -, hassemble⟩ := except_bind_eq_ok.1 hassemble
  cases hassemble
  refine ⟨_, rfl, rfl, checkHeight_of_lower h.fits hlower hgrows hops, ?_⟩
  rw [BlockGraph.runs_of_linearize hwell hops rfl, hwalks]
  exact Expr.behaviour_eq_of_callFree h.fits h.free _ _ _

/-! ### Access by an alias -/

/-- An alias has the location of its target, which is no alias. -/
theorem alias_eq {type : ValueType} (h : (newVariable type .pool (some v)).run.run c = (.ok a, c')) :
    v.isAlias = false ∧ a = ⟨type, v.location, some v.type⟩ := by
  rw [newVariable] at h
  cases hv : v.isAlias with
  | true =>
    rw [hv] at h
    cases h
  | false =>
    rw [hv] at h
    cases h
    exact ⟨rfl, rfl⟩

/-- However many accesses go by an alias, the tree stays one that is lowered, and does the same. -/
theorem Lowerable.replace (h : c.Lowerable root) (hversion : 5 ≤ c.options.version) (hv : v.isAlias = false)
    (ha : a = ⟨v.type, v.location, some v.type⟩)
    (hreplaces : ReflTransGen (Expr.Replaces (v.SameAccess a)) root root') (calls : Calls) :
    c.Lowerable root' ∧
      (root.behaviour calls c.current.isSome).Mirrors (root'.behaviour calls c.current.isSome) ∧
      (root'.behaviour calls c.current.isSome).Mirrors (root.behaviour calls c.current.isSome) := by
  induction hreplaces with
  | refl => exact ⟨h, .refl _, .refl _⟩
  | tail _ hstep ih =>
    obtain ⟨hlowerable, hforth, hback⟩ := ih
    rcases hstep.imp_or_eq fun haccess => haccess.detour_or_eq hv ha with hdetour | rfl
    · refine ⟨hlowerable.detour hversion hdetour, hforth.trans ?_, .trans ?_ hback⟩
      · exact (hdetour.mirrors hlowerable.orderly rfl).1
      · exact (hdetour.mirrors hlowerable.orderly rfl).2
    · exact ⟨hlowerable, hforth, hback⟩

/-- Where the operations that take the number of a slot off the stack are selected, any accesses to a variable in a
compiled tree without calls may go by its alias, if what is stored that way has the types that it states.  The tree is
still lowered, so that it compiles too unless subroutines waited before, and the assembled programs come to the same. -/
theorem alias_transparent (hc : c.Reachable) (hversion : 5 ≤ c.options.version) {c₀ c₀' : Compiler σ}
    (halias : (newVariable v.type .pool (some v)).run.run c₀ = (.ok a, c₀')) (hbuilt : root.Built)
    (hfree : root.CallFree) (hreplaces : ReflTransGen (Expr.Replaces (v.SameAccess a)) root root') {limit : Nat}
    {compilation : Compilation} (hcompile : (compile limit root).run.run c = some (.ok compilation, c')) :
    (∃ main graph, (lower root').run.run { c with current := none } = (.ok main, { c with current := none, graph })) ∧
    (c.pending = [] → ∃ compilation' c'', (compile limit root').run.run c = some (.ok compilation', c'')) ∧
    ∀ compilation' c'' p p', (compile limit root').run.run c = some (.ok compilation', c'') →
      compilation.assemble = .ok p → compilation'.assemble = .ok p' →
        ∀ m : Machine, m.Repeats p p' ∧ m.Repeats p' p := by
  obtain ⟨hv, ha⟩ := alias_eq halias
  have hlowerable := Lowerable.of_compile hc.sound hbuilt.fitsStack hfree hcompile
  obtain ⟨hlowerable', hforth, hback⟩ := hlowerable.replace hversion hv ha hreplaces fun _ => never
  refine ⟨hlowerable'.lower_isOk, fun hpending => hlowerable'.compile_isOk hpending limit,
    fun compilation' c'' p p' hcompile' hp hp' m => ?_⟩
  have hperforms := hlowerable.performs hc.sound hcompile hp
  have hperforms' := hlowerable'.performs hc.sound hcompile' hp'
  exact ⟨Machine.repeats_of_mirrors hperforms hperforms' hforth, Machine.repeats_of_mirrors hperforms' hperforms hback⟩

/-! ### A value that stores to the same variable -/

namespace Nested

def cell : Variable := ⟨.uint64, .pooled 0, none⟩

/-- An alias of the variable. -/
def shared : Variable := ⟨.uint64, .pooled 0, some .uint64⟩

/-- Sets the variable to one, and adds four to what is then read through `w`. -/
def value (w : Variable) : Expr := .seq [.op (.store 0) [.int 1] .none false, .add w.load (.int 4)]

/-- Sets the variable to that value. -/
def direct : Expr := .seq [.op (.store 0) [value cell] .none false, cell.load]

/-- The same with the outer store and the inner read by the alias. -/
def aliased : Expr := .seq [.op .stores [.int 0, value shared] .none false, cell.load]

def compiler : Compiler Unit := { key := 0, options := {}, slots := .empty 256, host := () }

def machine : Machine := { slotCount := 1 }

def directCompilation : Compilation where
  options := {}
  graph := ⟨#[⟨[.int 1], .next ⟨1⟩⟩, ⟨[.store 0], .next ⟨2⟩⟩, ⟨[.load 0], .next ⟨3⟩⟩, ⟨[.int 4], .next ⟨4⟩⟩,
    ⟨[.add], .next ⟨5⟩⟩, ⟨[.store 0], .next ⟨6⟩⟩, ⟨[.load 0], .opened⟩]⟩
  main := ⟨⟨0⟩, some ⟨6⟩⟩
  declarations := []

def aliasedCompilation : Compilation where
  options := {}
  graph := ⟨#[⟨[.int 0], .next ⟨1⟩⟩, ⟨[.int 1], .next ⟨2⟩⟩, ⟨[.store 0], .next ⟨3⟩⟩, ⟨[.int 0], .next ⟨4⟩⟩,
    ⟨[.loads], .next ⟨5⟩⟩, ⟨[.int 4], .next ⟨6⟩⟩, ⟨[.add], .next ⟨7⟩⟩, ⟨[.stores], .next ⟨8⟩⟩,
    ⟨[.load 0], .opened⟩]⟩
  main := ⟨⟨0⟩, some ⟨8⟩⟩
  declarations := []

def directProgram : Program where
  code := [⟨"main", #[.int 1, .store 0, .load 0, .int 4, .add, .store 0, .load 0]⟩]
  subroutines := .ofList []

def aliasedProgram : Program where
  code := [⟨"main", #[.int 0, .int 1, .store 0, .int 0, .loads, .int 4, .add, .stores, .load 0]⟩]
  subroutines := .ofList []

theorem compile_direct : (compile 1 direct).run.run compiler =
    some (.ok directCompilation, { compiler with graph := directCompilation.graph }) := by
  cbv

theorem compile_aliased : (compile 1 aliased).run.run compiler =
    some (.ok aliasedCompilation, { compiler with graph := aliasedCompilation.graph }) := by
  cbv

theorem assemble_direct : directCompilation.assemble = .ok directProgram := by
  cbv

theorem assemble_aliased : aliasedCompilation.assemble = .ok aliasedProgram := by
  cbv

theorem built_load : cell.load.Built := .load (.int 0) (by decide)

theorem built_value : (value cell).Built := by
  have hstore : cell.store (.int 1) = .ok (.op (.store 0) [.int 1] .none false) := rfl
  refine .seq fun e he => ?_
  simp only [List.mem_cons, List.not_mem_nil, or_false] at he
  rcases he with rfl | rfl
  · exact .store hstore (.int 0) (by decide) (.int 1) (by decide)
  · exact .binary (by decide) built_load (by decide) (.int 4) (by decide)

theorem built_direct : direct.Built := by
  have hstore : cell.store (value cell) = .ok (.op (.store 0) [value cell] .none false) := rfl
  refine .seq fun e he => ?_
  simp only [List.mem_cons, List.not_mem_nil, or_false] at he
  rcases he with rfl | rfl
  · exact .store hstore (.int 0) (by decide) built_value (by decide)
  · exact built_load

/-- What holds of all nodes of the tree. -/
theorem everywhere_direct {P : Expr → Prop} (h : ∀ q ∈ [direct, .op (.store 0) [value cell] .none false, value cell,
    .op (.store 0) [.int 1] .none false, .int 1, .add cell.load (.int 4), cell.load, .int 4], P q) :
    direct.Everywhere P := by
  simp only [List.forall_mem_cons] at h
  obtain ⟨hdirect, houter, hvalue, hinner, hone, hadd, hload, hfour, -⟩ := h
  have hleaf : ∀ {q : Expr}, q.parts = [] → P q → q.Everywhere P := fun hparts hq => .intro hq (by simp [hparts])
  have hread : cell.load.Everywhere P := hleaf rfl hload
  have hfirst : (Expr.op (.store 0) [.int 1] .none false).Everywhere P :=
    .intro hinner (List.forall_mem_singleton.2 (hleaf rfl hone))
  have hsecond : (Expr.add cell.load (.int 4)).Everywhere P :=
    .intro hadd (List.forall_mem_cons.2 ⟨hread, List.forall_mem_singleton.2 (hleaf rfl hfour)⟩)
  have hinside : (value cell).Everywhere P :=
    .intro hvalue (List.forall_mem_cons.2 ⟨hfirst, List.forall_mem_singleton.2 hsecond⟩)
  exact .intro hdirect (List.forall_mem_cons.2 ⟨.intro houter (List.forall_mem_singleton.2 hinside),
    List.forall_mem_singleton.2 hread⟩)

theorem callFree_direct : direct.CallFree := by
  refine everywhere_direct ?_
  simp [direct, value, cell, Variable.load, Variable.ownSlot?, Variable.isAlias, Location.index?, Expr.ofOp, Expr.add,
    Expr.binary]

theorem honest_value : (value cell).Honest := by
  have hplain : direct.Everywhere Expr.Plain := by
    refine everywhere_direct ?_
    simp only [List.forall_mem_cons, Expr.Plain]
    decide
  exact built_value.honest ((hplain.part (.head _)).part (.head _))

/-- First the outer store goes by the alias, then the inner read. -/
theorem replaces_direct : ReflTransGen (Expr.Replaces (cell.SameAccess shared)) direct aliased := by
  have houter : Expr.Replaces (cell.SameAccess shared) direct
      (.seq [.op .stores [.int 0, value cell] .none false, cell.load]) :=
    .part [] _ .seq rfl rfl (.here (.store honest_value rfl rfl))
  have hinner : Expr.Replaces (cell.SameAccess shared) (value cell) (value shared) :=
    .part [_] [] .seq rfl rfl (.part [] _ .op rfl rfl (.here .load))
  refine .tail (.single houter) (.part [] _ .seq rfl rfl ?_)
  exact .part [_] [] .op rfl rfl hinner

end Nested

open Nested in
/-- The variable ends as five, also by the alias. -/
theorem alias_transparent_nested : (machine.start aliasedProgram).Leads machine aliasedProgram fun r =>
    ∃ mem, r = .ended (.ok (some (.uint 5))) mem ∧ mem.scratch = #[.uint 5] := by
  have hcreate : create 0 {} () = .ok compiler := rfl
  have halias : (newVariable .uint64 .pool (some cell)).run.run compiler = (.ok shared, compiler) := rfl
  have hrun : (machine.start directProgram).after machine directProgram 8 =
      .ended (.ok (some (.uint 5))) ⟨[.uint 5], #[.uint 5]⟩ := by
    cbv
  have hlimited : ¬ ((machine.start directProgram).after machine directProgram 8).Limited := by
    rw [hrun]
    exact id
  obtain ⟨-, -, hrepeats⟩ := alias_transparent (.create hcreate) (le_refl 5) halias built_direct callFree_direct
    replaces_direct compile_direct
  exact (hrepeats _ _ _ _ compile_aliased assemble_direct assemble_aliased machine).1 8 _ _ hrun hlimited

end Compiler

end ScratchMachine
