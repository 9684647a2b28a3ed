import ScratchMachine.Proofs.Activations
import ScratchMachine.Proofs.Limits

/-!
# How a prologue binds the arguments

The code of a subroutine begins by taking its arguments off the stack.  Whatever is below them stays, each parameter
gets its own argument, and no other slot is touched.

* `Compiler.Reachable.bounded`: the slots that a compiler hands out are among those that there are.
* `after_stores`: a run of stores, which only a limit of the machine can cut short.
* `Compiler.prologue_binds_arguments`: the beginning of the code of a declared subroutine, and what it does.
-/

namespace ScratchMachine

open Progress

/-! ### Slots that there are -/

namespace Compiler

variable {σ : Type} {c c' c'' : Compiler σ}

/-- The slots that the pool hands out are those that the options give to a program. -/
def Bounded (c : Compiler σ) : Prop := c.slots.capacity = c.options.slotCount ∧ c.slots.Bounded

/-- One state follows another and is bounded. -/
def Bounds (c c' : Compiler σ) : Prop := c'.Bounded ∧ c.Evolves c'

theorem Bounded.of_grows (h : c.Bounded) (hslots : c.slots.Grows c'.slots) (hoptions : c'.options = c.options) :
    c'.Bounded :=
  ⟨hslots.capacity.trans (h.1.trans (congrArg _ hoptions.symm)), hslots.bounded h.2⟩

theorem Bounds.trans (h : c.Bounds c') (h' : c'.Bounds c'') : c.Bounds c'' := ⟨h'.1, h.2.trans h'.2⟩

theorem Bounded.bounds (h : c.Bounded) : c.Bounds c := ⟨h, .refl c⟩

theorem enduring_bounds : Enduring (Bounds (σ := σ)) where
  trans := Bounds.trans
  stays h := h.1.bounds
  slots h hslots := ⟨h.1.of_grows hslots rfl, .of_grows (.refl _ _) rfl⟩
  host _ h := ⟨h.1, .of_grows (.refl _ _) rfl⟩
  current _ h := ⟨h.1, .of_grows (.refl _ _) rfl⟩
  define name params returns body h := ⟨h.1, evolves_define _ name params returns body⟩
  lower h _ hadvances := by
    refine ⟨h.1.of_grows ?_ ?_, .of_grows hadvances.grows ?_⟩
    · rw [hadvances.rest]
      exact .refl _
    · rw [hadvances.rest]
    · rw [hadvances.rest]
  evolves h := h.2
  pending _ h := ⟨h.1, .of_grows (.refl _ _) rfl⟩
  undeclared h _ := ⟨h.1, evolves_withStatus _ _ _⟩
  declared _ h _ _ _ := ⟨h.1, h.2.trans (evolves_withStatus _ _ _)⟩

theorem Reachable.bounded (h : c.Reachable) : c.Bounded := by
  refine (h.holds enduring_bounds fun key options host c hcreate => ?_).1
  obtain ⟨-, -, hcreate⟩ := except_bind_eq_ok.1 hcreate
  cases hcreate
  exact Bounded.bounds ⟨rfl, SlotAllocator.bounded_empty _⟩

end Compiler

/-! ### Stores, one after the other -/

section Stores

variable {m : Machine} {p : Program} {e e' : Execution} {code : CodeObject} {slots : List UInt64} {slot : UInt64}
  {n : Nat}

/-- Apart from its position and its stack a run has only changed the values of the slots. -/
structure Execution.Stored (e : Execution) (slots : List UInt64) (n : Nat) (e' : Execution) : Prop where
  callers : e'.callers = e.callers
  steps : e'.steps = e.steps + n
  size : e'.memory.scratch.size = e.memory.scratch.size
  others : ∀ i, (∀ slot ∈ slots, slot.toNat ≠ i) → e'.memory.scratch[i]? = e.memory.scratch[i]?

theorem Machine.Moves.stored {mid : Execution} (h : Machine.Moves p mid e') (hnext : mid.next? = some (.store slot))
    (hslot : slot ∈ slots) (hmid : e.Stored slots n mid) : e.Stored slots (n + 1) e' := by
  obtain ⟨v, rest, -, -, rfl⟩ := h.of_store hnext
  refine ⟨hmid.callers, ?_, ?_, fun i hi => ?_⟩
  · dsimp only
    rw [hmid.steps, Nat.add_assoc]
  · rw [Array.size_setIfInBounds, hmid.size]
  · rw [Array.getElem?_setIfInBounds_ne (hi slot hslot), hmid.others i hi]

/-- A machine that can afford it executes a store of a value to a slot that there is. -/
theorem Machine.step_store (m : Machine) (p : Program) {v : Value} {rest : List Value}
    (hnext : e.next? = some (.store slot)) (hstack : e.memory.stack = v :: rest)
    (hlt : slot.toNat < e.memory.scratch.size) :
    (¬ m.Affords e ∧ (m.step p e).Limited) ∨ ∃ e', m.step p e = running e' := by
  by_cases hafford : m.Affords e
  · obtain ⟨frame, callers, ⟨stack, scratch⟩, steps⟩ := e
    obtain rfl : stack = v :: rest := hstack
    rw [m.step_of_affords hnext hafford, Operation.run_store v rest hlt]
    exact .inr ⟨_, rfl⟩
  · obtain ⟨fault, hlimit, hstep⟩ := m.step_of_not_affords (p := p) hnext hafford
    rw [hstep]
    exact .inl ⟨hafford, hlimit⟩

/-- The machine has room for so many operations more, on this stack. -/
def Machine.HasRoom (m : Machine) (e : Execution) (n : Nat) : Prop :=
  (∀ limit, m.steps = some limit → e.steps + n ≤ limit) ∧ e.memory.stack.length ≤ m.stackSize

/-- Code that begins with stores to different slots of the machine runs through them, if enough values are on the stack
and the machine has room. -/
theorem after_stores (hcode : code.Stores slots) (hnodup : slots.Nodup) (hcurrent : e.current = ⟨code, 0⟩)
    (hslots : ∀ slot ∈ slots, slot.toNat < e.memory.scratch.size) (hstack : slots.length ≤ e.memory.stack.length)
    (hn : n ≤ slots.length) :
    (¬ m.HasRoom e n ∧ ((running e).after m p n).Limited) ∨
      ∃ e', (running e).after m p n = running e' ∧ e.Stored slots n e' ∧ e'.Took code slots e.memory.stack n := by
  induction n with
  | zero => exact .inr ⟨e, rfl, ⟨rfl, rfl, rfl, fun _ _ => rfl⟩, hcurrent, rfl, .nil⟩
  | succ n ih =>
    rcases ih (by omega) with ⟨hroom, hlim⟩ | ⟨mid, hmid, hstored, htook⟩
    · refine .inl ⟨fun h => hroom ⟨fun limit hlimit => ?_, h.2⟩, ?_⟩
      · exact Nat.le_of_succ_le (h.1 limit hlimit)
      · rw [after_succ]
        exact limited_after hlim 1
    have hlt : n < slots.length := hn
    have hnext : mid.next? = some (.store slots[n]) := by
      rw [Execution.next?, htook.current]
      exact hcode n _ (List.getElem?_eq_getElem hlt)
    -- there is a value left for this slot
    obtain ⟨v, rest, htop⟩ : ∃ v rest, mid.memory.stack = v :: rest := by
      refine List.exists_cons_of_length_pos ?_
      rw [htook.stack, List.length_drop]
      omega
    have hsize : slots[n].toNat < mid.memory.scratch.size := hstored.size ▸ hslots _ (List.getElem_mem hlt)
    have hafter : (running e).after m p (n + 1) = m.step p mid := by
      rw [after_succ, hmid, after, after]
    rw [hafter]
    rcases m.step_store p hnext htop hsize with ⟨hafford, hlim⟩ | ⟨e', hstep⟩
    · refine .inl ⟨fun h => hafford ⟨fun limit hlimit => ?_, ?_⟩, hlim⟩
      · rw [hstored.steps]
        exact h.1 limit hlimit
      · rw [htook.stack, List.length_drop]
        exact (Nat.sub_le _ _).trans h.2
    · have hmoves := Machine.moves_of_step hstep
      exact .inr ⟨e', hstep, hmoves.stored hnext (List.getElem_mem hlt) hstored, htook.succ hcode hnodup hlt hmoves⟩

end Stores

/-! ### The beginning of the code of a subroutine -/

/-- The values have gone from the stack to the variables, and nothing else has changed. -/
structure Memory.Received (memory : Memory) (holders : List Variable) (values rest : List Value) (memory' : Memory) :
    Prop where
  stack : memory'.stack = rest
  bound : List.Forall₂ (fun v value => ∃ slot, v.ownSlot? = some slot ∧ memory'.Holds slot value) holders values
  others : ∀ i, (∀ v ∈ holders, ∀ slot, v.ownSlot? = some slot → slot.toNat ≠ i) →
    memory'.scratch[i]? = memory.scratch[i]?

theorem CodeObject.Stores.take_eq {code : CodeObject} {slots : List UInt64} (h : code.Stores slots) :
    code.ops.toList.take slots.length = slots.map .store := by
  refine List.ext_getElem? fun i => ?_
  by_cases hi : i < slots.length
  · rw [List.getElem?_take_of_lt hi, Array.getElem?_toList, h i _ (List.getElem?_eq_getElem hi), List.getElem?_map,
      List.getElem?_eq_getElem hi, Option.map_some]
  · rw [List.getElem?_eq_none (by simp; omega), List.getElem?_eq_none (by simp; omega)]

theorem received_of_holds {memory memory' : Memory} {holders : List Variable} {slots : List UInt64}
    {values : List Value} (hslots : holders.map (·.ownSlot?) = slots.map some)
    (hvalues : List.Forall₂ memory'.Holds slots values)
    (hothers : ∀ i, (∀ slot ∈ slots, slot.toNat ≠ i) → memory'.scratch[i]? = memory.scratch[i]?) :
    memory.Received holders values memory'.stack memory' := by
  refine ⟨rfl, ?_, fun i hi => hothers i fun slot hslot => ?_⟩
  · clear hothers
    induction hvalues generalizing holders with
    | nil =>
      obtain rfl := List.map_eq_nil_iff.1 hslots
      exact .nil
    | @cons slot value slots values hvalue _ ih =>
      obtain ⟨v, holders, rfl, hv, hrest⟩ := List.map_eq_cons_iff.1 hslots
      exact .cons ⟨slot, hv, hvalue⟩ (ih hrest)
  · have hmem : some slot ∈ holders.map (·.ownSlot?) := hslots ▸ List.mem_map_of_mem hslot
    obtain ⟨v, hv, hown⟩ := List.mem_map.1 hmem
    exact hi v hv slot hown

namespace Compiler

variable {σ : Type} {c : Compiler σ} {d : Declaration} {ops : List Operation}

/-- The code of a declared subroutine begins with one store for each parameter, the last one first.  When it has as many
arguments on the stack, the last one on top, these stores leave what is below them on the stack, each parameter in the
slot that holds it, and every other slot as it was; only a limit of the machine can come between. -/
theorem prologue_binds_arguments (hc : c.Reachable) (hd : d ∈ c.declarations)
    (hops : c.graph.linearize d.fragment.entry = .ok ops) :
    (∃ slots : List UInt64, d.holders.map (·.ownSlot?) = slots.map some ∧
      slots.length = d.subroutine.params.length ∧ slots.Nodup ∧
      ops.take d.subroutine.params.length = slots.reverse.map .store) ∧
    ∀ (m : Machine) (p : Program) (e : Execution) (name : String) (arguments rest : List Value),
      e.current = ⟨⟨name, ops.toArray⟩, 0⟩ → e.memory.stack = arguments.reverse ++ rest →
      arguments.length = d.subroutine.params.length → c.options.slotCount.toNat ≤ e.memory.scratch.size →
      (¬ m.HasRoom e d.subroutine.params.length ∧
        ((running e).after m p d.subroutine.params.length).Limited) ∨
      ∃ memory, e.memory.Received d.holders arguments rest memory ∧
        (running e).after m p d.subroutine.params.length =
          running ⟨⟨⟨name, ops.toArray⟩, d.subroutine.params.length⟩, e.callers, memory,
            e.steps + d.subroutine.params.length⟩ := by
  have hfurnished := hc.furnishes.furnished
  have hin := hfurnished.declarations d hd
  have hbounded := hc.bounded
  have hlength : d.slots.length = d.subroutine.params.length := by
    have hlength := congrArg List.length hin.holders
    rw [List.length_map, List.length_map, (hc.sound.declarations hd).2.2.1] at hlength
    exact hlength.symm
  have hstores := hin.stores hops
  have htake := (hstores d.subroutine.name).take_eq
  rw [List.length_reverse, hlength] at htake
  refine ⟨⟨d.slots, hin.holders, hlength, hin.nodup, htake⟩, ?_⟩
  intro m p e name arguments rest hcurrent hstack hcount hsize
  have hslots : ∀ slot ∈ d.slots.reverse, slot.toNat < e.memory.scratch.size := by
    intro slot hslot
    have hlt := hbounded.2.lt hfurnished.ordered (hin.pooled (List.mem_reverse.1 hslot))
    rw [hbounded.1, UInt64.lt_iff_toNat_lt] at hlt
    omega
  have hreverse : d.slots.reverse.length = d.subroutine.params.length := by rw [List.length_reverse, hlength]
  have henough : d.slots.reverse.length ≤ e.memory.stack.length := by
    rw [hreverse, hstack, List.length_append, List.length_reverse, hcount]
    omega
  rw [← hreverse]
  refine (after_stores (hstores name) (List.nodup_reverse.2 hin.nodup) hcurrent hslots henough (le_refl _)).imp_right ?_
  rintro ⟨e', hafter, hstored, htook⟩
  have hsplit : d.slots.reverse.length = arguments.reverse.length := by
    rw [hreverse, List.length_reverse, hcount]
  have hholds := List.rel_reverse htook.holds
  rw [List.take_length, List.reverse_reverse, hstack, hsplit, List.take_left, List.reverse_reverse] at hholds
  have hrest : e'.memory.stack = rest := by rw [htook.stack, hstack, hsplit, List.drop_left]
  refine ⟨e'.memory, ?_, ?_⟩
  · rw [← hrest]
    exact received_of_holds hin.holders hholds fun i hi => hstored.others i fun slot hslot =>
      hi slot (List.mem_reverse.1 hslot)
  · rw [hafter, ← htook.current, ← hstored.callers, ← hstored.steps]

/-- The subroutine that sets a variable to the double of a number has been called with 7 and the variable of slot 0,
above a value that is not its own. -/
def Scaling.entered : Execution :=
  ⟨⟨scaleCode, 0⟩, [⟨main, 3⟩], ⟨[.uint 0, .uint 7, .uint 9], .replicate 256 (.uint 0)⟩, 3⟩

open Scaling in
theorem prologue_binds_arguments_scaling :
    ∃ memory, entered.memory.Received scaleDeclaration.holders [.uint 7, .uint 0] [.uint 9] memory ∧
      (running entered).after machine program 2 = running ⟨⟨scaleCode, 2⟩, [⟨main, 3⟩], memory, 5⟩ := by
  have hops : compilation.graph.linearize scaleDeclaration.fragment.entry = .ok scaleCode.ops.toList := by cbv
  obtain ⟨-, hruns⟩ := prologue_binds_arguments (.compile reachable compile_root) (List.mem_cons_self ..) hops
  have hroom : machine.HasRoom entered 2 := ⟨fun limit hlimit => (by cases hlimit), by decide⟩
  have hsize : compiler.options.slotCount.toNat ≤ entered.memory.scratch.size := by
    have hslots : compiler.options.slotCount = 256 := by cbv
    rw [hslots, entered, Array.size_replicate]
    exact le_refl _
  exact (hruns machine program entered "scale" [.uint 7, .uint 0] [.uint 9] rfl rfl rfl hsize).resolve_left
    fun h => h.1 hroom

end Compiler

end ScratchMachine
