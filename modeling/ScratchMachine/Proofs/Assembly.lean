import ScratchMachine.Proofs.Declaring

/-!
# Assembled programs

The evaluation of a whole compilation, in which a call binds the arguments to the slots of its subroutine and evaluates
the body, and the program that the compilation is assembled to.

* `Compilation.evaluate`: the evaluation of the main program.
* `Compiler.Compiled.calls_eq`: the calls of the assembled program are those of the evaluation.
* `Compiler.run_iff_evaluate`: the machine runs the assembled program as the trees are evaluated.
-/

namespace ScratchMachine

open Behaviour BlockGraph Effect Fallible

/-! ### The evaluation of a compilation -/

/-- The top of the stack is moved into the slot of a variable. -/
def Variable.receive (v : Variable) : Behaviour :=
  match v.ownSlot? with
  | some slot => perform (pop >>= writeSlot slot) fun _ => skip
  | none => never

/-- The tops of the stack are moved into the slots of variables, the first variable first. -/
def Variable.receiveAll : List Variable → Behaviour
  | [] => skip
  | v :: rest => v.receive.andThen (receiveAll rest)

/-- The evaluation of a declared subroutine: it takes its arguments off the stack, the last of which is on top,
evaluates the body and leaves. -/
def Declaration.behaviour (calls : Calls) (d : Declaration) : Behaviour :=
  (Variable.receiveAll d.holders.reverse).andThen ((d.body.behaviour calls true).andThen (exit .leave))

namespace Compilation

/-- The evaluation of calls, as far as they nest at most to a depth. -/
def callsWithin (c : Compilation) : Nat → Calls
  | 0, _ => never
  | depth + 1, id =>
    match c.declaration? id with
    | none => exit (.fault ⟨.undefinedSubroutine id, []⟩)
    | some d => asCall d.subroutine.name (d.behaviour (c.callsWithin depth))

/-- The evaluation of calls. -/
def calls (c : Compilation) : Calls := fun id m f m' => ∃ depth, c.callsWithin depth id m f m'

/-- The evaluation of a main program with the subroutines of the compilation. -/
def evaluate (c : Compilation) (root : Expr) : Behaviour := root.behaviour c.calls false

end Compilation

/-- How a program ends if control leaves its main code object in some way and with some memory. -/
def Flow.outcome (memory : Memory) : Flow → Outcome
  | done => .ok memory.stack.head?
  | leave => .error ⟨.strayRetsub, ["main"]⟩
  | halt v => .ok (some v)
  | fault error => .error (error.inContext "main")

/-! ### The code of a declaration -/

theorem Variable.storeTop_eq_ok {v : Variable} {e : Expr} (h : v.storeTop = .ok e) :
    e.Regular ∧ ∀ calls inSubroutine, e.behaviour calls inSubroutine = v.receive := by
  unfold storeTop at h
  split at h
  · rename_i slot hslot
    cases h
    refine ⟨.op ⟨rfl, rfl, by simp, by simp⟩ (by simp), fun calls inSubroutine => ?_⟩
    rw [receive, hslot, Expr.ofOp, Expr.behaviour, Expr.behaviourAll, skip_andThen, Operation.behaviour]
    rw [Operation.execute, perform_bind]
    dsimp only
    rw [perform_bind]
    congr 1
    funext v
    rw [perform_bind]
    rfl
  · cases h

theorem Variable.behaviourAll_stores {vs : List Variable} {stores : List Expr} (h : vs.mapM (·.storeTop) = .ok stores) :
    (∀ e ∈ stores, e.Regular) ∧
      ∀ calls inSubroutine, Expr.behaviourAll calls inSubroutine stores = Variable.receiveAll vs := by
  have hall := forall₂_of_mapM h
  clear h
  induction hall with
  | nil => exact ⟨by simp, fun _ _ => by rw [Expr.behaviourAll, receiveAll]⟩
  | @cons v e vs stores hv _ ih =>
    obtain ⟨hreg, hbehaviour⟩ := storeTop_eq_ok hv
    refine ⟨fun e' he' => ?_, fun calls inSubroutine => ?_⟩
    · rcases List.mem_cons.1 he' with rfl | he'
      · exact hreg
      · exact ih.1 e' he'
    · rw [Expr.behaviourAll, receiveAll, hbehaviour, ih.2]

namespace Compiler

variable {σ : Type}

/-- A body with a return at its end is evaluated as the body, and then control leaves. -/
theorem behaviour_withReturn (s : Subroutine) {body : Expr} (hbody : body.Regular) :
    (withReturn s body).Regular ∧ ∀ calls, (withReturn s body).behaviour calls true =
      (body.behaviour calls true).andThen (exit .leave) := by
  unfold withReturn
  split
  · rename_i hreturns
    refine ⟨hbody, fun calls => ?_⟩
    rw [(Expr.stops_behaviour hbody hreturns).andThen]
  · split
    · refine ⟨.seq fun e he => ?_, fun calls => ?_⟩
      · rcases List.mem_cons.1 he with rfl | he
        · exact hbody
        · obtain rfl := List.mem_singleton.1 he
          exact .retNothing
      · rw [Expr.behaviour, Expr.behaviourAll, Expr.behaviourAll, Expr.behaviourAll, andThen_skip, Expr.behaviour]
        rfl
    · refine ⟨.ret hbody, fun calls => ?_⟩
      rw [Expr.behaviour]
      rfl

theorem behaviour_prologue {d : Declaration} {code : Expr}
    (h : prologue d.holders (withReturn d.subroutine d.body) = .ok code) (hbody : d.body.Regular) :
    code.Regular ∧ ∀ calls, code.behaviour calls true = d.behaviour calls := by
  obtain ⟨stores, hstores, h⟩ := except_bind_eq_ok.1 h
  cases h
  obtain ⟨hreg, hbehaviour⟩ := Variable.behaviourAll_stores hstores
  obtain ⟨hreg', hbehaviour'⟩ := behaviour_withReturn d.subroutine hbody
  refine ⟨.seq fun e he => ?_, fun calls => ?_⟩
  · rcases List.mem_append.1 he with he | he
    · exact hreg e he
    · obtain rfl := List.mem_singleton.1 he
      exact hreg'
  · rw [Expr.behaviour, Expr.behaviourAll_append, hbehaviour, Expr.behaviourAll, Expr.behaviourAll, andThen_skip,
      hbehaviour', Declaration.behaviour]

end Compiler

/-- A declaration that means its code does what its evaluation says. -/
theorem Declaration.MeansIn.walks {g : BlockGraph} {d : Declaration} (h : d.MeansIn g) (hbody : d.body.Regular) :
    (∀ calls, g.Walks calls d.fragment.entry = d.behaviour calls) ∧ g.WellFormedFrom d.fragment.entry := by
  obtain ⟨code, hcode, hopen, hmeans⟩ := h
  obtain ⟨hreg, hbehaviour⟩ := Compiler.behaviour_prologue hcode hbody
  obtain ⟨hwalks, hwell⟩ := (hmeans hreg g (.refl g)).walks hopen
  exact ⟨fun calls => (hwalks calls).trans (hbehaviour calls), hwell⟩

/-! ### The table of subroutines -/

namespace SubroutineTable

theorem find?_foldl_of_not_mem {entries : List (SubroutineId × UInt64)} {t : SubroutineTable} {id : SubroutineId}
    (h : id ∉ entries.map (·.1)) : (entries.foldl (fun t e => t.insert e.1 e.2) t).find? id = t.find? id := by
  induction entries generalizing t with
  | nil => rfl
  | cons e entries ih =>
    rw [List.map_cons, List.mem_cons, not_or] at h
    rw [List.foldl_cons, ih h.2, find?_insert, if_neg h.1]

theorem find?_foldl_of_mem {entries : List (SubroutineId × UInt64)} {t : SubroutineTable} {id : SubroutineId}
    {index : UInt64} (hnodup : (entries.map (·.1)).Nodup) (h : (id, index) ∈ entries) :
    (entries.foldl (fun t e => t.insert e.1 e.2) t).find? id = some index := by
  induction entries generalizing t with
  | nil => cases h
  | cons e entries ih =>
    rw [List.map_cons, List.nodup_cons] at hnodup
    rw [List.foldl_cons]
    rcases List.mem_cons.1 h with rfl | h
    · rw [find?_foldl_of_not_mem hnodup.1, find?_insert, if_pos rfl]
    · exact ih hnodup.2 h

end SubroutineTable

namespace Compilation

/-- The entries of the table of the assembled program. -/
def entries (c : Compilation) : List (SubroutineId × UInt64) :=
  c.declarations.mapIdx fun i d => (d.subroutine.id, UInt64.ofNat (i + 1))

theorem keys_entries (c : Compilation) : c.entries.map (·.1) = c.declarations.map (·.subroutine.id) := by
  refine List.ext_getElem? fun i => ?_
  rw [List.getElem?_map, entries, List.getElem?_mapIdx, List.getElem?_map, Option.map_map]
  rfl

theorem find?_entries_of_none {c : Compilation} {id : SubroutineId} (h : c.declaration? id = none) :
    (SubroutineTable.ofList c.entries).find? id = none := by
  have hnot : id ∉ c.entries.map (·.1) := by
    rw [keys_entries]
    intro hmem
    obtain ⟨d, hd, rfl⟩ := List.mem_map.1 hmem
    have hne := List.find?_eq_none.1 h d hd
    simp at hne
  rw [SubroutineTable.ofList, SubroutineTable.find?_foldl_of_not_mem hnot]
  rfl

end Compilation

namespace Compiler

section Compiled

variable {σ : Type} {root : Expr} {compilation : Compilation} {p : Program}

theorem Compiled.le_number (h : Compiled root compilation) {i : Nat} {d : Declaration}
    (hd : compilation.declarations[i]? = some d) : i ≤ d.subroutine.id.number.toNat := by
  induction i generalizing d with
  | zero => exact Nat.zero_le _
  | succ i ih =>
    obtain ⟨hlt, hget⟩ := List.getElem?_eq_some_iff.1 hd
    have hprev := ih (List.getElem?_eq_getElem (show i < compilation.declarations.length by omega))
    have hless := List.pairwise_iff_getElem.1 h.ascending i (i + 1) (by omega) hlt (by omega)
    rw [hget] at hless
    omega

theorem Compiled.nodup_ids (h : Compiled root compilation) :
    (compilation.declarations.map (·.subroutine.id)).Nodup := by
  refine List.pairwise_map.2 (h.ascending.imp fun hlt heq => ?_)
  rw [heq] at hlt
  exact absurd hlt (lt_irrefl _)

/-- A declaration stands for its number. -/
theorem Compiled.declaration?_eq (h : Compiled root compilation) {d : Declaration}
    (hd : d ∈ compilation.declarations) :
    compilation.declaration? d.subroutine.id = some d := by
  cases hfind : compilation.declaration? d.subroutine.id with
  | none =>
    have hne := List.find?_eq_none.1 hfind d hd
    simp at hne
  | some d' =>
    have hid : d'.subroutine.id = d.subroutine.id := by simpa using List.find?_some hfind
    rw [List.inj_on_of_nodup_map h.nodup_ids (List.mem_of_find?_eq_some hfind) hd hid]

theorem Compiled.find?_entries (h : Compiled root compilation) {i : Nat} {d : Declaration}
    (hd : compilation.declarations[i]? = some d) :
    (SubroutineTable.ofList compilation.entries).find? d.subroutine.id = some (UInt64.ofNat (i + 1)) ∧
      (UInt64.ofNat (i + 1)).toNat = i + 1 := by
  constructor
  · obtain ⟨hlt, hget⟩ := List.getElem?_eq_some_iff.1 hd
    have hnodup := h.nodup_ids
    rw [← Compilation.keys_entries] at hnodup
    refine SubroutineTable.find?_foldl_of_mem hnodup (List.mem_mapIdx.2 ⟨i, hlt, ?_⟩)
    rw [hget]
  -- numbers of subroutines have 32 bits, so there are fewer than the table can count
  · have hle := h.le_number hd
    have hnumber := d.subroutine.id.number.toNat_lt
    rw [UInt64.toNat_ofNat', Nat.mod_eq_of_lt (by omega)]

/-- In the assembled program a subroutine runs the code of its declaration. -/
theorem Compiled.subroutine?_eq (h : Compiled root compilation) (hp : compilation.assemble = .ok p)
    (id : SubroutineId) :
    match compilation.declaration? id with
    | none => p.subroutine? id = none
    | some d => ∃ ops, compilation.graph.linearize d.fragment.entry = .ok ops ∧
        p.subroutine? id = some ⟨d.subroutine.name, ops.toArray⟩ := by
  obtain ⟨main, -, hp⟩ := except_bind_eq_ok.1 hp
  obtain ⟨subs, hsubs, hp⟩ := except_bind_eq_ok.1 hp
  have htable : p.subroutines = .ofList compilation.entries := by cases hp; rfl
  have hcode : p.code = ⟨"main", main.toArray⟩ :: subs := by cases hp; rfl
  have hall := forall₂_of_mapM hsubs
  cases hd : compilation.declaration? id with
  | none =>
    dsimp only
    rw [Program.subroutine?, htable, Compilation.find?_entries_of_none hd]
    rfl
  | some d =>
    obtain rfl : d.subroutine.id = id := by simpa using List.find?_some hd
    obtain ⟨i, hi⟩ := List.getElem?_of_mem (List.mem_of_find?_eq_some hd)
    obtain ⟨hlt, hget⟩ := List.getElem?_eq_some_iff.1 hi
    obtain ⟨hfind, hindex⟩ := h.find?_entries hi
    have hsub : i < subs.length := by rw [← hall.length_eq]; exact hlt
    have hobject : Compilation.codeObject compilation.graph compilation.declarations[i] = .ok subs[i] :=
      hall.get hlt hsub
    rw [hget] at hobject
    obtain ⟨ops, hops, hobject⟩ := except_bind_eq_ok.1 hobject
    refine ⟨ops, hops, ?_⟩
    rw [Program.subroutine?, htable, hfind, hcode]
    show (CodeObject.mk "main" main.toArray :: subs)[(UInt64.ofNat (i + 1)).toNat]? = _
    rw [hindex, List.getElem?_cons_succ, List.getElem?_eq_getElem hsub]
    rw [Except.ok.inj hobject]

/-- The calls of the assembled program are evaluated as those of the compilation, to any depth. -/
theorem Compiled.callsWithin_eq (h : Compiled root compilation) (hbodies : ∀ d ∈ compilation.declarations, d.body.Regular)
    (hp : compilation.assemble = .ok p) (depth : Nat) : p.callsWithin depth = compilation.callsWithin depth := by
  induction depth with
  | zero => rfl
  | succ depth ih =>
    funext id
    have hsub := h.subroutine?_eq hp id
    rw [Program.callsWithin, Compilation.callsWithin]
    cases hd : compilation.declaration? id with
    | none =>
      rw [hd] at hsub
      rw [show p.subroutine? id = none from hsub]
    | some d =>
      rw [hd] at hsub
      obtain ⟨ops, hops, hsub⟩ := hsub
      have hmem := List.mem_of_find?_eq_some hd
      obtain ⟨hwalks, hwell⟩ := (h.declarations d hmem).walks (hbodies d hmem)
      rw [hsub]
      dsimp only
      rw [runs_of_linearize hwell hops rfl, hwalks, ih]

theorem Compiled.calls_eq (h : Compiled root compilation) (hbodies : ∀ d ∈ compilation.declarations, d.body.Regular)
    (hp : compilation.assemble = .ok p) : p.calls = compilation.calls := by
  funext id m f m'
  simp only [Program.calls, Compilation.calls, h.callsWithin_eq hbodies hp]

/-- The main code object of the assembled program does what the evaluation of the main program does. -/
theorem Compiled.main?_eq (h : Compiled root compilation) (hroot : root.Regular)
    (hbodies : ∀ d ∈ compilation.declarations, d.body.Regular) (hp : compilation.assemble = .ok p) :
    ∃ main, p.main? = some main ∧ main.name = "main" ∧ main.Runs p.calls 0 = compilation.evaluate root := by
  have hcalls := h.calls_eq hbodies hp
  obtain ⟨ops, hops, hp⟩ := except_bind_eq_ok.1 hp
  obtain ⟨subs, -, hp⟩ := except_bind_eq_ok.1 hp
  cases hp
  obtain ⟨hwalks, hwell⟩ := (h.main hroot).walks h.mainOpen
  refine ⟨_, rfl, rfl, ?_⟩
  rw [runs_of_linearize hwell hops rfl, hwalks, hcalls]
  rfl

open Progress

theorem departing_main {main : CodeObject} (hname : main.name = "main") (f : Flow) (memory : Memory) (steps : Nat) :
    departing main [] memory steps f = .ended (f.outcome memory) memory := by
  cases f with
  | done => rfl
  | leave => simp [departing, Execution.fail, Frame.names, Execution.frames, Flow.outcome, hname]
  | halt v => rfl
  | fault error => simp [departing, Frame.names, Flow.outcome, RuntimeError.inContext, hname]

/-- The machine runs a compiled and assembled program as its trees are evaluated: what the evaluation of the main
program comes to, the run comes to, unless a limit of the machine ends it; and a run that no limit ended comes to
nothing else. -/
theorem assembled_run_eq_evaluation {c c' : Compiler σ} (hc : c.Reachable) {limit : Nat}
    (hcompile : (compile limit root).run.run c = some (.ok compilation, c')) (hroot : root.Regular)
    (hbodies : ∀ d ∈ compilation.declarations, d.body.Regular) (hassemble : compilation.assemble = .ok p)
    (hcheck : ∀ main, p.main? = some main → checkHeight 0 main.ops.toList = .ok ()) (m : Machine) :
    (∀ f mem, compilation.evaluate root (.blank m.slotCount) f mem →
      (m.start p).Leads m p fun r => r = .ended (f.outcome mem) mem) ∧
    ∀ n outcome mem, (m.start p).after m p n = .ended outcome mem → ¬ ((m.start p).after m p n).Limited →
      ∃ f, compilation.evaluate root (.blank m.slotCount) f mem ∧ outcome = f.outcome mem := by
  have hcompiled := (compile_ensures hc.sound limit root).of_ok hcompile
  obtain ⟨main, hmain, hname, hruns⟩ := hcompiled.main?_eq hroot hbodies hassemble
  have hstart : m.start p = m.enter main [] (.blank m.slotCount) 0 := by
    rw [Machine.start, hmain]
    dsimp only
    rw [hcheck main hmain]
  rw [hstart]
  rcases m.enter_cases main [] (.blank m.slotCount) 0 with hlimited | henter
  · exact ⟨fun f mem _ => .limit hlimited, fun n _ _ _ hlim => absurd (limited_after hlimited n) hlim⟩
  rw [henter]
  refine ⟨fun f mem heval => ?_, fun n outcome mem hended hlim => ?_⟩
  · rw [← hruns] at heval
    refine (CodeObject.leads_of_runs heval [] 0).trans ?_
    rintro r ⟨steps, rfl⟩
    exact .here (departing_main hname f mem steps)
  · have hover : ((running ⟨⟨main, 0⟩, [], .blank m.slotCount, 0⟩).after m p n).Surfaced 0 := by
      rw [hended]
      trivial
    obtain ⟨k, f, mem', steps, hk, heval, hafter⟩ := CodeObject.runs_of_surfaced hover hlim
    rw [hruns] at heval
    rw [departing_main hname] at hafter
    obtain ⟨rest, rfl⟩ := Nat.exists_eq_add_of_le hk
    rw [after_add, hafter, after_ended] at hended
    cases hended
    exact ⟨f, heval, rfl⟩

end Compiled

/-! ### A program with a subroutine -/

namespace Doubling

/-- The variable that holds the parameter of the subroutine. -/
def holder : Variable := ⟨.uint64, .pooled 0, none⟩

/-- The body of a subroutine that doubles its argument. -/
def body : Body Unit := fun _ params =>
  match params with
  | [.value x] => .done (.add x x)
  | _ => .fail .programWithoutValue

/-- The subroutine. -/
def handle : Subroutine := ⟨0, ⟨0⟩, "double", [⟨"x", .value, .uint64⟩], .uint64⟩

/-- A compiler with the subroutine. -/
def compiler : Compiler Unit :=
  (define { key := 0, options := {}, slots := .empty 256, host := () } "double" handle.params .uint64 body).2

/-- A main program that doubles a number. -/
def root : Expr := .call handle [.value (.int 21)]

def declaration : Declaration := ⟨handle, .add holder.load holder.load, ⟨⟨2⟩, none⟩, [holder]⟩

def compilation : Compilation where
  options := {}
  graph := ⟨#[⟨[.int 21], .next ⟨1⟩⟩, ⟨[.callsub ⟨0⟩], .opened⟩, ⟨[.store 0], .next ⟨3⟩⟩, ⟨[.load 0], .next ⟨4⟩⟩,
    ⟨[.load 0], .next ⟨5⟩⟩, ⟨[.add], .next ⟨6⟩⟩, ⟨[.retsub], .terminal⟩]⟩
  main := ⟨⟨0⟩, some ⟨1⟩⟩
  declarations := [declaration]

def program : Program where
  code := [⟨"main", #[.int 21, .callsub ⟨0⟩]⟩, ⟨"double", #[.store 0, .load 0, .load 0, .add, .retsub]⟩]
  subroutines := .ofList [(⟨0⟩, 1)]

theorem compile_root : (compile 2 root).run.run compiler = some (.ok compilation, { compiler with
    slots := ⟨256, 1, [], [0]⟩, graph := compilation.graph, definitions := [⟨handle, body, .declared declaration⟩] }) := by
  cbv

theorem assemble_compilation : compilation.assemble = .ok program := by
  cbv

theorem regular_load : holder.load.Regular :=
  .op ⟨rfl, rfl, by simp, by simp⟩ (by simp)

end Doubling

open Doubling in
/-- The main program doubles 21 to 42 when it is evaluated, as the machine does when it runs. -/
theorem assembled_run_eq_evaluation_doubling :
    ∃ f mem, compilation.evaluate root (.blank 1) f mem ∧ f.outcome mem = .ok (some (.uint 42)) := by
  let m : Machine := { slotCount := 1 }
  have hcreate : create 0 {} () = .ok (⟨0, {}, .empty 256, {}, [], [], none, ()⟩ : Compiler Unit) := rfl
  have hreachable : compiler.Reachable := .define "double" handle.params .uint64 body (.create hcreate)
  have hroot : root.Regular := by
    refine .call fun a ha => ?_
    obtain rfl := List.mem_singleton.1 ha
    exact .int 21
  have hbodies : ∀ d ∈ compilation.declarations, d.body.Regular := by
    intro d hd
    obtain rfl := List.mem_singleton.1 hd
    refine .op ⟨rfl, rfl, by simp, by simp⟩ fun e he => ?_
    simp only [List.mem_cons, List.not_mem_nil, or_false, or_self] at he
    rw [he]
    exact regular_load
  have hcheck : ∀ main, program.main? = some main → checkHeight 0 main.ops.toList = .ok () := by
    intro main hmain
    cases hmain
    rfl
  have hrun : (m.start program).after m program 8 = .ended (.ok (some (.uint 42))) ⟨[.uint 42], #[.uint 21]⟩ := by
    cbv
  have hlimited : ¬ ((m.start program).after m program 8).Limited := by
    rw [hrun]
    exact id
  obtain ⟨f, heval, houtcome⟩ := (assembled_run_eq_evaluation hreachable compile_root hroot hbodies
    assemble_compilation hcheck m).2 8 _ _ hrun hlimited
  exact ⟨f, _, heval, houtcome.symm⟩

end Compiler

end ScratchMachine
