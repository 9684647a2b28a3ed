import ScratchMachine.Proofs.Assembly
import ScratchMachine.Proofs.Moves
import ScratchMachine.Proofs.Parameters

/-!
# The arguments of a subroutine while it is active

A subroutine takes its arguments off the stack into the slots of its parameters, which are the same in all its
activations.  So its parameters stand for the arguments of its last call, until something else is stored there.

* `Param.standsFor_handle`: a handle stands for what is in the slot of its parameter.
* `Compiler.Compiled.took`: how a subroutine that was called takes its arguments.
* `Compiler.parameters_hold_until_reentry`: from then on its parameters stand for them, until it is called again.
-/

namespace ScratchMachine

open Behaviour Effect Progress

/-! ### What handles stand for -/

/-- To evaluate the argument leaves the value.  If it is a variable, and the value the number of a slot, then to read
and to set the variable is to read and to set this slot. -/
structure Arg.StandsFor (a : Arg) (memory : Memory) (v : Value) : Prop where
  value : ∀ calls inSubroutine,
    a.behaviour calls inSubroutine memory = exit .done { memory with stack := v :: memory.stack }
  load : ∀ target slot, a = .ref target → v = .uint slot → ∀ calls inSubroutine,
    target.load.behaviour calls inSubroutine memory = (Operation.load slot).behaviour calls memory
  store : ∀ target slot, a = .ref target → v = .uint slot → ∀ e set, target.store e = .ok set →
    ∀ calls inSubroutine, set.behaviour calls inSubroutine memory =
      ((e.behaviour calls inSubroutine).andThen (Operation.stores.behaviour calls))
        { memory with stack := .uint slot :: memory.stack }

theorem Arg.StandsFor.unique {a : Arg} {memory : Memory} {v w : Value} (hv : a.StandsFor memory v)
    (hw : a.StandsFor memory w) : v = w := by
  have heq := (hv.value (fun _ => never) true).symm.trans (hw.value (fun _ => never) true)
  have hexit : exit .done { memory with stack := w :: memory.stack } .done
      { memory with stack := v :: memory.stack } := by
    rw [← heq]
    exact ⟨rfl, rfl⟩
  cases hexit.2
  rfl

/-- The value is in the slot. -/
def Memory.Holds (m : Memory) (slot : UInt64) (v : Value) : Prop := m.scratch[slot.toNat]? = some v

section Handles

variable {calls : Calls} {inSubroutine : Bool} {memory : Memory} {holder : Variable} {slot : UInt64} {v : Value}

theorem behaviour_load (h : memory.Holds slot v) :
    (Operation.load slot).behaviour calls memory = exit .done { memory with stack := v :: memory.stack } := by
  rw [Operation.behaviour, Operation.execute, perform_bind, perform_ok (run_readSlot h)]
  rfl

theorem behaviour_loads (slot : UInt64) :
    Operation.loads.behaviour calls { memory with stack := .uint slot :: memory.stack } =
      (Operation.load slot).behaviour calls memory := by
  have hpop : popInteger.run.run { memory with stack := .uint slot :: memory.stack } = (.ok slot, memory) := rfl
  rw [Operation.behaviour, Operation.execute, perform_bind, perform_ok hpop]
  rfl

theorem Variable.behaviour_load_of_ownSlot (hslot : holder.ownSlot? = some slot) :
    holder.load.behaviour calls inSubroutine = (Operation.load slot).behaviour calls := by
  rw [Variable.load, hslot]
  dsimp only [Expr.ofOp]
  rw [Expr.behaviour, Expr.behaviourAll, skip_andThen]

/-- A handle stands for what is in the slot of its parameter. -/
theorem Param.standsFor_handle (p : Param) (hslot : holder.ownSlot? = some slot)
    (h : memory.Holds slot v) : (p.handle holder).StandsFor memory v := by
  have hload : ∀ calls inSubroutine, holder.load.behaviour calls inSubroutine memory =
      exit .done { memory with stack := v :: memory.stack } := by
    intro calls inSubroutine
    rw [Variable.behaviour_load_of_ownSlot hslot, behaviour_load h]
  obtain ⟨name, passing, type⟩ := p
  cases passing with
  | value =>
    refine ⟨fun calls inSubroutine => ?_, fun target slot heq => ?_, fun target slot heq => ?_⟩
    · rw [handle, Arg.behaviour, hload]
    · cases heq
    · cases heq
  | ref =>
    refine ⟨fun calls inSubroutine => ?_, fun target slot heq hv calls inSubroutine => ?_,
      fun target slot heq hv e set hset calls inSubroutine => ?_⟩
    · rw [handle, Arg.behaviour, Variable.behaviour, Location.behaviour, hload]
    · -- the variable is read by its number, which was left by reading the holder
      cases heq
      subst hv
      have heq : Variable.load ⟨type, .computed holder.load, some type⟩ = .ofOp .loads [holder.load] type := rfl
      rw [heq, Expr.ofOp, Expr.behaviour, Expr.behaviourAll, Expr.behaviourAll, andThen_skip,
        andThen_of_done (hload _ _), behaviour_loads]
    · cases heq
      subst hv
      obtain ⟨-, -, hset⟩ := except_bind_eq_ok.1 hset
      cases hset
      dsimp only [Expr.ofOp, Variable.index, Location.indexExpr]
      rw [Expr.behaviour, Expr.behaviourAll, Expr.behaviourAll, Expr.behaviourAll, andThen_skip, andThen_assoc,
        andThen_of_done (hload _ _)]

/-- Handles stand for what is in the slots of their parameters. -/
theorem standsFor_handles {params : List Param} {holders : List Variable} {slots : List UInt64} {values : List Value}
    (hslots : holders.map (·.ownSlot?) = slots.map some) (hlength : params.length = slots.length)
    (hvalues : List.Forall₂ memory.Holds slots values) :
    List.Forall₂ (·.StandsFor memory ·) (List.zipWith Param.handle params holders) values := by
  induction hvalues generalizing params holders with
  | nil =>
    obtain rfl := List.length_eq_zero_iff.1 hlength
    exact .nil
  | cons hv _ ih =>
    cases params with
    | nil => cases hlength
    | cons p params =>
      cases holders with
      | nil => cases hslots
      | cons holder holders =>
        rw [List.map_cons, List.map_cons, List.cons.injEq] at hslots
        exact .cons (p.standsFor_handle hslots.1 hv) (ih hslots.2 (Nat.succ.inj hlength))

end Handles

/-! ### How a subroutine takes its arguments -/

/-- The code begins with stores to the slots. -/
def CodeObject.Stores (code : CodeObject) (slots : List UInt64) : Prop :=
  ∀ (i : Nat) (slot : UInt64), slots[i]? = some slot → code.ops[i]? = some (.store slot)

/-- So does the code of a subroutine, with the slots of its parameters, the last one first. -/
theorem Declaration.FurnishedIn.stores {pooled : List UInt64} {g : BlockGraph} {d : Declaration}
    (h : d.FurnishedIn pooled g) {ops : List Operation} (hops : g.linearize d.fragment.entry = .ok ops) (name : String) :
    CodeObject.Stores ⟨name, ops.toArray⟩ d.slots.reverse := by
  obtain ⟨last, hline⟩ := h.line
  intro i slot hslot
  have hop : (d.slots.reverse.map Operation.store)[i]? = some (.store slot) := by
    rw [List.getElem?_map, hslot, Option.map_some]
  rw [List.getElem?_toArray]
  exact hline.getElem?_linearize hops hop

/-- After so many of the stores that the code begins with, the slots hold what was on top of the stack before them. -/
structure Execution.Took (e : Execution) (code : CodeObject) (slots : List UInt64) (before : List Value) (n : Nat) :
    Prop where
  current : e.current = ⟨code, n⟩
  stack : e.memory.stack = before.drop n
  holds : List.Forall₂ e.memory.Holds (slots.take n) (before.take n)

section Receiving

variable {m : Machine} {p : Program} {e e' : Execution} {code : CodeObject} {slots : List UInt64}
  {before : List Value} {n : Nat}

theorem Execution.Took.succ (h : e.Took code slots before n) (hcode : code.Stores slots) (hnodup : slots.Nodup)
    (hn : n < slots.length) (hmoves : Machine.Moves p e e') : e'.Took code slots before (n + 1) := by
  have hnext : e.next? = some (.store slots[n]) := by
    rw [next?, h.current]
    exact hcode n _ (List.getElem?_eq_getElem hn)
  obtain ⟨v, rest, hstack, hlt, rfl⟩ := hmoves.of_store hnext
  have hdrop : before.drop n = v :: rest := h.stack.symm.trans hstack
  have htop : before[n]? = some v := by
    rw [← List.head?_drop, hdrop, List.head?_cons]
  have hslots : slots.take (n + 1) = slots.take n ++ [slots[n]] := List.take_succ_eq_append_getElem hn
  have hvalues : before.take (n + 1) = before.take n ++ [v] := by
    rw [List.take_add_one, htop, Option.toList_some]
  -- the slots that were set before keep their values
  have hne : ∀ slot ∈ slots.take n, slots[n].toNat ≠ slot.toNat := by
    intro slot hslot heq
    have hnodup' : (slots.take n ++ [slots[n]]).Nodup := hslots ▸ hnodup.sublist (List.take_sublist ..)
    exact List.disjoint_of_nodup_append hnodup' hslot (List.mem_singleton.2 (UInt64.toNat_inj.1 heq).symm)
  refine ⟨by rw [h.current], ?_, ?_⟩
  · rw [← List.tail_drop, hdrop, List.tail_cons]
  · rw [hslots, hvalues]
    refine List.rel_append ?_ (.cons (Array.getElem?_setIfInBounds_self_of_lt hlt) .nil)
    refine ((List.forall₂_and_left _ _).2 ⟨hne, h.holds⟩).imp fun slot w hslot => ?_
    rw [Memory.Holds, Array.getElem?_setIfInBounds_ne hslot.1]
    exact hslot.2

/-- Code that begins with stores to different slots moves as many values there from the stack, the top first. -/
theorem took_of_after (hcode : code.Stores slots) (hnodup : slots.Nodup) (hcurrent : e.current = ⟨code, 0⟩)
    (h : (running e).after m p n = running e') (hn : n ≤ slots.length) : e'.Took code slots e.memory.stack n := by
  induction n generalizing e' with
  | zero =>
    cases h
    exact ⟨hcurrent, rfl, .nil⟩
  | succ n ih =>
    obtain ⟨mid, hmid, hmoves⟩ := running_of_after_succ h
    exact (ih hmid (by omega)).succ hcode hnodup (by omega) hmoves

end Receiving

/-! ### Calls of declared subroutines -/

/-- The arguments with which a subroutine is about to be called. -/
def Execution.arguments (e : Execution) (s : Subroutine) : List Value := (e.memory.stack.take s.arity).reverse

/-- In this run the machine is about to call the subroutine after so many moves. -/
def Machine.CallsAt (m : Machine) (p : Program) (id : SubroutineId) (t : Nat) : Prop :=
  ∃ e, (m.start p).after m p t = .running e ∧ e.next? = some (.callsub id)

/-- After so many moves a subroutine that was called is taking its arguments. -/
def Compilation.ReceivesAt (c : Compilation) (m : Machine) (p : Program) (k : Nat) : Prop :=
  ∃ d ∈ c.declarations, ∃ t, m.CallsAt p d.subroutine.id t ∧ t < k ∧ k ≤ t + d.subroutine.arity

namespace Compiler

section Declared

variable {σ : Type} {root : Expr} {compilation : Compilation} {p : Program} {d : Declaration} {m : Machine}
  {e e' : Execution} {pooled : List UInt64}

theorem Compiled.length_slots (h : Compiled root compilation) (hd : d ∈ compilation.declarations)
    (hfurnished : d.FurnishedIn pooled compilation.graph) : d.slots.length = d.subroutine.arity := by
  have hlength := congrArg List.length hfurnished.holders
  rw [List.length_map, List.length_map] at hlength
  rw [← hlength, (h.passed d hd).1]

/-- A subroutine that was called takes its arguments in its first moves. -/
theorem Compiled.took (h : Compiled root compilation) (hassemble : compilation.assemble = .ok p)
    (hd : d ∈ compilation.declarations) (hfurnished : d.FurnishedIn pooled compilation.graph) {t j : Nat}
    (hcall : (m.start p).after m p t = .running e) (hnext : e.next? = some (.callsub d.subroutine.id))
    (hafter : (m.start p).after m p (t + 1 + j) = .running e') (hj : j ≤ d.subroutine.arity) :
    ∃ code : CodeObject, code.Stores d.slots.reverse ∧ e'.Took code d.slots.reverse e.memory.stack j := by
  have hlength := h.length_slots hd hfurnished
  have hcode := h.subroutine?_eq hassemble d.subroutine.id
  rw [h.declaration?_eq hd] at hcode
  obtain ⟨ops, hops, hcode⟩ := hcode
  obtain ⟨e₀, he₀⟩ := running_of_after hafter (Nat.le_add_right (t + 1) j)
  obtain ⟨e₁, he₁, hmoves⟩ := running_of_after_succ he₀
  cases hcall.symm.trans he₁
  obtain ⟨code, hcode', rfl⟩ := hmoves.of_callsub hnext
  cases hcode.symm.trans hcode'
  rw [after_add, he₀] at hafter
  have hstores := hfurnished.stores hops d.subroutine.name
  have hle : j ≤ d.slots.reverse.length := by
    rw [List.length_reverse, hlength]
    exact hj
  have htook := took_of_after hstores (List.nodup_reverse.2 hfurnished.nodup) (by rfl) hafter hle
  exact ⟨_, hstores, htook⟩

/-- What a subroutine sets as it takes its arguments are the slots of its parameters. -/
theorem Compiled.next_of_receiving (h : Compiled root compilation) (hassemble : compilation.assemble = .ok p)
    (hd : d ∈ compilation.declarations) (hfurnished : d.FurnishedIn pooled compilation.graph) {t k : Nat}
    (hcall : m.CallsAt p d.subroutine.id t) (htk : t < k) (hk : k ≤ t + d.subroutine.arity)
    (hafter : (m.start p).after m p k = .running e) : ∃ slot ∈ d.slots, e.next? = some (.store slot) := by
  obtain ⟨e₀, hcall, hnext⟩ := hcall
  obtain ⟨j, rfl⟩ := Nat.exists_eq_add_of_le (Nat.succ_le_of_lt htk)
  obtain ⟨code, hcode, htook⟩ := h.took hassemble hd hfurnished hcall hnext hafter (by omega)
  have hlength := h.length_slots hd hfurnished
  have hj : j < d.slots.reverse.length := by
    rw [List.length_reverse]
    omega
  refine ⟨d.slots.reverse[j], List.mem_reverse.1 (List.getElem_mem hj), ?_⟩
  rw [Execution.next?, htook.current]
  exact hcode j _ (List.getElem?_eq_getElem hj)

/-- From when it has taken its arguments until it is called again, the parameters of a subroutine stand for them, if
meanwhile nothing sets their slots but subroutines that take their arguments. -/
theorem parameters_hold_until_reentry {c c' : Compiler σ} (hc : c.Reachable) {limit : Nat}
    (hcompile : (compile limit root).run.run c = some (.ok compilation, c'))
    (hassemble : compilation.assemble = .ok p) (hd : d ∈ compilation.declarations) {t n : Nat}
    (hcall : (m.start p).after m p t = .running e)
    (hnext : e.next? = some (.callsub d.subroutine.id))
    (hafter : (m.start p).after m p (t + 1 + d.subroutine.arity + n) = .running e')
    (hagain : ∀ k, t < k → k < t + 1 + d.subroutine.arity + n → ¬ m.CallsAt p d.subroutine.id k)
    (hstores : ∀ k mid slot, t + d.subroutine.arity < k → k < t + 1 + d.subroutine.arity + n →
      (m.start p).after m p k = .running mid → mid.target? = some slot → slot ∈ d.slots →
        compilation.ReceivesAt m p k) :
    List.Forall₂ (·.StandsFor e'.memory ·) d.handles (e.arguments d.subroutine) := by
  have hcompiled := (compile_ensures hc.sound limit root).of_ok hcompile
  obtain ⟨hfurnished, hapart⟩ := compile_furnishes hc hcompile
  have hlength := hcompiled.length_slots hd (hfurnished d hd)
  obtain ⟨e₀, he₀⟩ := running_of_after hafter (Nat.le_add_right _ n)
  obtain ⟨code, -, htook⟩ := hcompiled.took hassemble hd (hfurnished d hd) hcall hnext he₀ (le_refl _)
  have hholds : List.Forall₂ e₀.memory.Holds d.slots (e.arguments d.subroutine) := by
    have hrev := List.rel_reverse htook.holds
    rwa [List.take_of_length_le (by rw [List.length_reverse, hlength]), List.reverse_reverse] at hrev
  -- nothing sets a slot of the subroutine: another one that takes its arguments has other slots
  have hstays : ∀ k mid, k < n → (running e₀).after m p k = running mid → ∀ slot ∈ d.slots,
      mid.target? ≠ some slot := by
    intro k mid hk hmid slot hslot htarget
    rw [← he₀, ← after_add] at hmid
    obtain ⟨d', hd', t', hcalls, hlt, hle⟩ := hstores _ mid slot (by omega) (by omega) hmid htarget hslot
    obtain ⟨slot', hslot', hnext'⟩ :=
      hcompiled.next_of_receiving hassemble hd' (hfurnished d' hd') hcalls hlt hle hmid
    have heq : slot' = slot := by
      rw [Execution.target?, hnext', Option.bind_some, Operation.target?_store] at htarget
      exact Option.some.inj htarget
    rw [heq] at hslot'
    obtain rfl := hapart d hd d' hd' slot hslot hslot'
    exact hagain t' (by omega) (by omega) hcalls
  rw [after_add, he₀] at hafter
  have hkept : List.Forall₂ e'.memory.Holds d.slots (e.arguments d.subroutine) := by
    refine ((List.forall₂_and_left _ _).2 ⟨fun slot hslot => hslot, hholds⟩).imp fun slot v hv => ?_
    rw [Memory.Holds, scratch_of_after hafter fun k mid hk hmid => hstays k mid hk hmid slot hv.1]
    exact hv.2
  exact standsFor_handles (hfurnished d hd).holders hlength.symm hkept

end Declared

/-! ### A subroutine that calls another -/

namespace Scaling

/-- A subroutine that sets a variable to the double of a number and leaves the number. -/
def scale : Subroutine := ⟨0, ⟨0⟩, "scale", [⟨"n", .value, .uint64⟩, ⟨"into", .ref, .uint64⟩], .uint64⟩

def double : Subroutine := ⟨0, ⟨1⟩, "double", [⟨"n", .value, .uint64⟩], .uint64⟩

def scaleBody : Body Unit := fun _ params =>
  match params with
  | [.value n, .ref into] =>
    match into.store (.call double [.value n]) with
    | .ok set => .done (.seq [set, n])
    | .error e => .fail e
  | _ => .fail .programWithoutValue

def doubleBody : Body Unit := fun _ params =>
  match params with
  | [.value n] => .done (.add n n)
  | _ => .fail .programWithoutValue

def created : Compiler Unit := { key := 0, options := {}, slots := .empty 256, host := () }

/-- The compiler after it has made a variable. -/
def withVariable : Compiler Unit := ((newVariable .uint64 .pool none).run.run created).2

def compiler : Compiler Unit :=
  (define (define withVariable "scale" scale.params .uint64 scaleBody).2 "double" double.params .uint64 doubleBody).2

/-- A variable in a slot of the pool. -/
def variableAt (slot : UInt64) : Variable := ⟨.uint64, .pooled slot, none⟩

theorem ownSlot_variableAt (slot : UInt64) : (variableAt slot).ownSlot? = some slot := rfl

def root : Expr := .call scale [.value (.int 7), .ref (variableAt 0)]

def scaleDeclaration : Declaration where
  subroutine := scale
  body := .seq [.ofOp .stores [(variableAt 2).load, .call double [.value (variableAt 1).load]] .none,
    (variableAt 1).load]
  fragment := ⟨⟨3⟩, none⟩
  holders := [variableAt 1, variableAt 2]

def doubleDeclaration : Declaration :=
  ⟨double, .add (variableAt 3).load (variableAt 3).load, ⟨⟨11⟩, none⟩, [variableAt 3]⟩

def compilation : Compilation where
  options := {}
  graph := ⟨#[⟨[.int 7], .next ⟨1⟩⟩, ⟨[.int 0], .next ⟨2⟩⟩, ⟨[.callsub ⟨0⟩], .opened⟩, ⟨[.store 2], .next ⟨4⟩⟩,
    ⟨[.store 1], .next ⟨5⟩⟩, ⟨[.load 2], .next ⟨6⟩⟩, ⟨[.load 1], .next ⟨7⟩⟩, ⟨[.callsub ⟨1⟩], .next ⟨8⟩⟩,
    ⟨[.stores], .next ⟨9⟩⟩, ⟨[.load 1], .next ⟨10⟩⟩, ⟨[.retsub], .terminal⟩, ⟨[.store 3], .next ⟨12⟩⟩,
    ⟨[.load 3], .next ⟨13⟩⟩, ⟨[.load 3], .next ⟨14⟩⟩, ⟨[.add], .next ⟨15⟩⟩, ⟨[.retsub], .terminal⟩]⟩
  main := ⟨⟨0⟩, some ⟨2⟩⟩
  declarations := [scaleDeclaration, doubleDeclaration]

def main : CodeObject := ⟨"main", #[.int 7, .int 0, .callsub ⟨0⟩]⟩

def scaleCode : CodeObject :=
  ⟨"scale", #[.store 2, .store 1, .load 2, .load 1, .callsub ⟨1⟩, .stores, .load 1, .retsub]⟩

def program : Program where
  code := [main, scaleCode, ⟨"double", #[.store 3, .load 3, .load 3, .add, .retsub]⟩]
  subroutines := .ofList [(⟨0⟩, 1), (⟨1⟩, 2)]

def machine : Machine := { slotCount := 4 }

theorem compile_root : (compile 4 root).run.run compiler = some (.ok compilation, { compiler with
    slots := ⟨256, 4, [], [3, 2, 1, 0]⟩, graph := compilation.graph,
    definitions := [⟨scale, scaleBody, .declared scaleDeclaration⟩,
      ⟨double, doubleBody, .declared doubleDeclaration⟩] }) := by
  cbv

theorem assemble_compilation : compilation.assemble = .ok program := by
  cbv

theorem reachable : compiler.Reachable := by
  have hcreate : create 0 {} () = .ok created := rfl
  exact .define _ _ _ _ (.define _ _ _ _ (.newVariable .uint64 .pool none (.create hcreate)))

/-- Whether the run is about to call the subroutine. -/
def callsScale : Progress → Bool
  | .running e =>
    match e.next? with
    | some (.callsub id) => id == scale.id
    | _ => false
  | .ended .. => false

/-- Whether the run is about to set a slot of the subroutine. -/
def setsScale : Progress → Bool
  | .running e => e.target?.any (· ∈ scaleDeclaration.slots)
  | .ended .. => false

theorem calls_no_more : ∀ k < 11, callsScale ((machine.start program).after machine program (3 + k)) = false := by
  decide +kernel

theorem sets_no_more : ∀ k < 9, setsScale ((machine.start program).after machine program (5 + k)) = false := by
  decide +kernel

end Scaling

open Scaling in
/-- When the other subroutine has returned, and the variable is set, the parameters still stand for the number and for
the variable. -/
theorem parameters_hold_until_reentry_scaling :
    ∃ e', (machine.start program).after machine program 14 = .running e' ∧ e'.memory.scratch[0]? = some (.uint 14) ∧
      List.Forall₂ (·.StandsFor e'.memory ·) scaleDeclaration.handles [.uint 7, .uint 0] := by
  have hcall : (machine.start program).after machine program 2 =
      .running ⟨⟨main, 2⟩, [], ⟨[.uint 0, .uint 7], .replicate 4 (.uint 0)⟩, 2⟩ := by
    cbv
  have hmoment : (machine.start program).after machine program 14 =
      .running ⟨⟨scaleCode, 6⟩, [⟨main, 3⟩], ⟨[], #[.uint 14, .uint 7, .uint 0, .uint 7]⟩, 14⟩ := by
    cbv
  have hagain : ∀ k, 2 < k → k < 14 → ¬ machine.CallsAt program scale.id k := by
    rintro k hlo hhi ⟨mid, hmid, hnext⟩
    obtain ⟨j, rfl⟩ := Nat.exists_eq_add_of_le hlo
    have hcalls := calls_no_more j (by omega)
    rw [hmid, callsScale, hnext] at hcalls
    cases hcalls
  have hstores : ∀ k mid slot, 4 < k → k < 14 → (machine.start program).after machine program k = .running mid →
      mid.target? = some slot → slot ∈ scaleDeclaration.slots → compilation.ReceivesAt machine program k := by
    intro k mid slot hlo hhi hmid htarget hslot
    obtain ⟨j, rfl⟩ := Nat.exists_eq_add_of_le hlo
    have hsets := sets_no_more j (by omega)
    rw [hmid, setsScale, htarget] at hsets
    simp [hslot] at hsets
  exact ⟨_, hmoment, rfl, parameters_hold_until_reentry (n := 9) reachable compile_root assemble_compilation
    (List.mem_cons_self ..) hcall rfl hmoment hagain hstores⟩

/-! ### Parameters that do not hold -/

namespace Overwriting

open Scaling (created variableAt)

/-- A subroutine that calls itself with another argument before it uses its own. -/
def again : Subroutine := ⟨0, ⟨0⟩, "again", [⟨"n", .value, .uint64⟩], .uint64⟩

/-- A subroutine that sets the slot of its parameter. -/
def spoil : Subroutine := ⟨0, ⟨1⟩, "spoil", [⟨"n", .value, .uint64⟩], .uint64⟩

def againBody : Body Unit := fun self params =>
  match params with
  | [.value n] => .done (.ifElse n (.add (.call self [.value (.int 0)]) n) (.int 0))
  | _ => .fail .programWithoutValue

def spoilBody : Body Unit := fun _ params =>
  match params with
  | [.value n] => .done (.seq [.ofOp (.store 1) [.int 5] .none, n])
  | _ => .fail .programWithoutValue

def compiler : Compiler Unit :=
  (define (define created "again" again.params .uint64 againBody).2 "spoil" spoil.params .uint64 spoilBody).2

def root : Expr := .add (.call again [.value (.int 1)]) (.call spoil [.value (.int 3)])

def againDeclaration : Declaration where
  subroutine := again
  body := .ifElse (variableAt 0).load (.add (.call again [.value (.int 0)]) (variableAt 0).load) (.int 0)
  fragment := ⟨⟨5⟩, none⟩
  holders := [variableAt 0]

def spoilDeclaration : Declaration where
  subroutine := spoil
  body := .seq [.ofOp (.store 1) [.int 5] .none, (variableAt 1).load]
  fragment := ⟨⟨14⟩, none⟩
  holders := [variableAt 1]

def compilation : Compilation where
  options := {}
  graph := ⟨#[⟨[.int 1], .next ⟨1⟩⟩, ⟨[.callsub ⟨0⟩], .next ⟨2⟩⟩, ⟨[.int 3], .next ⟨3⟩⟩, ⟨[.callsub ⟨1⟩], .next ⟨4⟩⟩,
    ⟨[.add], .opened⟩, ⟨[.store 0], .next ⟨6⟩⟩, ⟨[.load 0], .branch ⟨7⟩ ⟨12⟩ []⟩, ⟨[.int 0], .next ⟨8⟩⟩,
    ⟨[.callsub ⟨0⟩], .next ⟨9⟩⟩, ⟨[.load 0], .next ⟨10⟩⟩, ⟨[.add], .next ⟨11⟩⟩, ⟨[], .next ⟨13⟩⟩,
    ⟨[.int 0], .next ⟨11⟩⟩, ⟨[.retsub], .terminal⟩, ⟨[.store 1], .next ⟨15⟩⟩, ⟨[.int 5], .next ⟨16⟩⟩,
    ⟨[.store 1], .next ⟨17⟩⟩, ⟨[.load 1], .next ⟨18⟩⟩, ⟨[.retsub], .terminal⟩]⟩
  main := ⟨⟨0⟩, some ⟨4⟩⟩
  declarations := [againDeclaration, spoilDeclaration]

def main : CodeObject := ⟨"main", #[.int 1, .callsub ⟨0⟩, .int 3, .callsub ⟨1⟩, .add]⟩

def againCode : CodeObject :=
  ⟨"again", #[.store 0, .load 0, .jumpIfFalse 6, .int 0, .callsub ⟨0⟩, .load 0, .add, .jump 2, .int 0, .retsub]⟩

def spoilCode : CodeObject := ⟨"spoil", #[.store 1, .int 5, .store 1, .load 1, .retsub]⟩

def program : Program where
  code := [main, againCode, spoilCode]
  subroutines := .ofList [(⟨0⟩, 1), (⟨1⟩, 2)]

def machine : Machine := { slotCount := 2 }

theorem compile_root : (compile 4 root).run.run compiler = some (.ok compilation, { compiler with
    slots := ⟨256, 2, [], [1, 0]⟩, graph := compilation.graph,
    definitions := [⟨again, againBody, .declared againDeclaration⟩,
      ⟨spoil, spoilBody, .declared spoilDeclaration⟩] }) := by
  cbv

theorem assemble_compilation : compilation.assemble = .ok program := by
  cbv

end Overwriting

open Overwriting in
/-- Without any store to a slot of computed number, a parameter no longer stands for its argument when the subroutine
has called itself, and after a store to its slot. -/
theorem parameters_overwritten :
    compiler.Reachable ∧ (∃ c', (compile 4 root).run.run compiler = some (.ok compilation, c')) ∧
      compilation.assemble = .ok program ∧ (∀ code ∈ program.code, .stores ∉ code.ops) ∧
      (∃ e e', (machine.start program).after machine program 1 = .running e ∧ e.next? = some (.callsub again.id) ∧
        (machine.start program).after machine program 12 = .running e' ∧ e'.callers = [⟨main, 2⟩] ∧
        ¬ List.Forall₂ (·.StandsFor e'.memory ·) againDeclaration.handles (e.arguments again)) ∧
      ∃ e e', (machine.start program).after machine program 17 = .running e ∧ e.next? = some (.callsub spoil.id) ∧
        (machine.start program).after machine program 21 = .running e' ∧ e'.callers = [⟨main, 4⟩] ∧
        ¬ List.Forall₂ (·.StandsFor e'.memory ·) spoilDeclaration.handles (e.arguments spoil) := by
  have hreachable : compiler.Reachable := by
    have hcreate : create 0 {} () = .ok Scaling.created := rfl
    exact .define _ _ _ _ (.define _ _ _ _ (.create hcreate))
  refine ⟨hreachable, ⟨_, compile_root⟩, assemble_compilation, by decide +kernel, ?_, ?_⟩
  · have hcall : (machine.start program).after machine program 1 =
        .running ⟨⟨main, 1⟩, [], ⟨[.uint 1], .replicate 2 (.uint 0)⟩, 1⟩ := by
      cbv
    have hmoment : (machine.start program).after machine program 12 = .running ⟨⟨againCode, 5⟩, [⟨main, 2⟩],
        ⟨[.uint 0], #[.uint 0, .uint 0]⟩, 12⟩ := by
      cbv
    refine ⟨_, _, hcall, rfl, hmoment, rfl, fun hall => ?_⟩
    obtain ⟨hone, -⟩ := List.forall₂_cons.1 hall
    have hzero := Param.standsFor_handle ⟨"n", .value, .uint64⟩ (Scaling.ownSlot_variableAt 0)
      (rfl : Memory.Holds ⟨[.uint 0], #[.uint 0, .uint 0]⟩ 0 (.uint 0))
    cases hone.unique hzero
  · have hcall : (machine.start program).after machine program 17 =
        .running ⟨⟨main, 3⟩, [], ⟨[.uint 3, .uint 0], #[.uint 0, .uint 0]⟩, 17⟩ := by
      cbv
    have hmoment : (machine.start program).after machine program 21 = .running ⟨⟨spoilCode, 3⟩, [⟨main, 4⟩],
        ⟨[.uint 0], #[.uint 0, .uint 5]⟩, 21⟩ := by
      cbv
    refine ⟨_, _, hcall, rfl, hmoment, rfl, fun hall => ?_⟩
    obtain ⟨hthree, -⟩ := List.forall₂_cons.1 hall
    have hfive := Param.standsFor_handle ⟨"n", .value, .uint64⟩ (Scaling.ownSlot_variableAt 1)
      (rfl : Memory.Holds ⟨[.uint 0], #[.uint 0, .uint 5]⟩ 1 (.uint 5))
    cases hthree.unique hfive

end Compiler

end ScratchMachine
