import Mathlib.Logic.Relation
import ScratchMachine.Proofs.Allocation
import ScratchMachine.Proofs.Parameters

/-!
# The slots that a compiler grants

All slots of a compiler come from one allocator: those of the variables that hosts ask for, and those of the parameters.
So a slot that is granted is none that a parameter has, and a parameter gets none that was granted before.

* `SlotAllocator.Valid`: what is always true of an allocator.
* `Compiler.Allots`: all that a request for a variable, or the binding of parameters, can change.
* `Compiler.owns_of_newVariable`, `Compiler.owns_of_bindParams`: the slots that are granted.
-/

namespace ScratchMachine

open Fallible

namespace SlotAllocator

variable {r r' r'' : SlotAllocator} {capacity : UInt64}

/-- Requests that are granted lead from one allocator to another. -/
def Comes : SlotAllocator → SlotAllocator → Prop :=
  Relation.ReflTransGen fun r r' => ∃ request location, r.take request = .ok (location, r')

theorem Comes.refl (r : SlotAllocator) : r.Comes r := Relation.ReflTransGen.refl

theorem Comes.trans (h : r.Comes r') (h' : r'.Comes r'') : r.Comes r'' := Relation.ReflTransGen.trans h h'

theorem comes_take {request : SlotRequest} {location : Location} (h : r.take request = .ok (location, r')) : r.Comes r' :=
  .single ⟨request, location, h⟩

theorem Comes.grows (h : r.Comes r') : r.Grows r' := by
  induction h with
  | refl => exact .refl r
  | tail _ htake ih =>
    obtain ⟨request, location, htake⟩ := htake
    exact ih.trans (take_grows htake)

/-- The slots that were asked for by number stay reserved. -/
theorem Comes.reserved (h : r.Comes r') : r.reserved ⊆ r'.reserved := by
  induction h with
  | refl => exact List.Subset.refl _
  | tail _ htake ih =>
    obtain ⟨request, location, htake⟩ := htake
    refine List.Subset.trans ih ?_
    cases request with
    | pool =>
      simp only [take, takePooled] at htake
      split at htake
      · cases htake
        exact List.Subset.refl _
      · cases htake
    | fixed id =>
      simp only [take, takeFixed] at htake
      split at htake
      · split at htake
        · cases htake
        · cases htake
          exact fun i hi => List.mem_insert_iff.2 (.inr hi)
      · cases htake
    | computed index =>
      simp only [take, takeComputed] at htake
      split at htake
      · cases htake
        exact List.Subset.refl _
      · cases htake

/-- The state of the allocator comes from what it has handed out. -/
def Valid (r : SlotAllocator) (capacity : UInt64) : Prop := ∃ handedOut, (Work.mk r handedOut).Accounted capacity

theorem valid_empty (capacity : UInt64) : (empty capacity).Valid capacity := ⟨[], Work.accounted_begin capacity⟩

theorem Comes.valid (h : r.Comes r') (hr : r.Valid capacity) : r'.Valid capacity := by
  induction h with
  | refl => exact hr
  | tail _ htake ih =>
    obtain ⟨request, location, htake⟩ := htake
    obtain ⟨handedOut, haccounted⟩ := ih
    have hserved := haccounted.serve (.take request)
    rw [Work.serve, htake] at hserved
    exact ⟨_, hserved⟩

/-- The numbers of slots that were handed out are below the number of slots. -/
theorem Valid.lt (h : r.Valid capacity) {i : UInt64} (hi : i ∈ r.pooled ∨ i ∈ r.reserved) : i < capacity := by
  obtain ⟨handedOut, haccounted⟩ := h
  exact haccounted.below i (haccounted.mem_slots_iff.2 hi)

theorem Valid.disjoint (h : r.Valid capacity) {i : UInt64} (hpooled : i ∈ r.pooled) : i ∉ r.reserved := by
  obtain ⟨handedOut, haccounted⟩ := h
  exact haccounted.disjoint i hpooled

theorem Valid.ordered (h : r.Valid capacity) : r.Ordered := by
  obtain ⟨handedOut, haccounted⟩ := h
  exact haccounted.ordered

/-- A slot of known number is none that the pool had handed out before. -/
theorem take_fresh (h : r.Ordered) {request : SlotRequest} {location : Location} {i : UInt64}
    (htake : r.take request = .ok (location, r')) (hi : location.index? = some i) :
    i ∉ r.pooled ∧ (i ∈ r'.pooled ∨ i ∈ r'.reserved) := by
  cases request with
  | pool =>
    obtain ⟨slot, rfl, hfresh, hmem⟩ := takePooled_fresh h htake
    cases hi
    exact ⟨hfresh, .inl hmem⟩
  | fixed id =>
    simp only [take, takeFixed] at htake
    split at htake
    · split at htake
      · cases htake
      · rename_i hpool
        cases htake
        cases hi
        exact ⟨hpool, .inr (List.mem_insert_iff.2 (.inl rfl))⟩
    · cases htake
  | computed index =>
    simp only [take, takeComputed] at htake
    split at htake
    · cases htake
      cases hi
    · cases htake

end SlotAllocator

namespace Compiler

variable {σ α β : Type} {c c' c'' : Compiler σ}

/-- Nothing has changed but the slots, and they by requests that were granted. -/
structure Allots (c c' : Compiler σ) : Prop where
  rest : c' = { c with slots := c'.slots }
  slots : c.slots.Comes c'.slots

theorem Allots.refl (c : Compiler σ) : c.Allots c := ⟨rfl, .refl _⟩

theorem Allots.trans (h : c.Allots c') (h' : c'.Allots c'') : c.Allots c'' :=
  ⟨by rw [h'.rest, h.rest], h.slots.trans h'.slots⟩

theorem Allots.takes (h : c.Allots c') : c.Takes c' := ⟨h.rest, h.slots.grows⟩

/-- From any state, nothing changes but the slots, by requests that are granted. -/
def AllotsSlots (x : Compiling σ α) : Prop := ∀ c, Ensures x c (fun _ c' => c.Allots c') c.Allots

theorem allotsSlots_pure (a : α) : AllotsSlots (pure a : Compiling σ α) := fun c => .refl c

theorem allotsSlots_bind {x : Compiling σ α} {k : α → Compiling σ β} (hx : AllotsSlots x) (hk : ∀ a, AllotsSlots (k a)) :
    AllotsSlots (x >>= k) := fun c =>
  ensures_bind ((hx c).imp (fun a c' h => (hk a c').imp (fun _ _ h' => h.trans h') fun _ h' => h.trans h') fun _ h => h)

theorem allotsSlots_newLocation (request : SlotRequest) : AllotsSlots (newLocation (σ := σ) request) := by
  intro c
  refine ensures_bind (ensures_get (ensures_bind (ensures_lift (fun a ha => ?_) (.refl c))))
  exact ensures_bind (ensures_modify (ensures_pure ⟨rfl, SlotAllocator.comes_take ha⟩))

theorem allotsSlots_newVariable (type : ValueType) (request : SlotRequest) (target : Option Variable) :
    AllotsSlots (newVariable (σ := σ) type request target) := by
  unfold newVariable
  split
  · exact allotsSlots_bind (allotsSlots_newLocation _) fun location => allotsSlots_pure _
  · intro c
    split
    · exact ensures_bind (ensures_throw (.refl c))
    · exact ensures_pure (.refl c)
  · exact fun c => ensures_throw (.refl c)

theorem allotsSlots_bindParams (params : List Param) : AllotsSlots (params.mapM (bindParam (σ := σ))) := by
  have hparam : ∀ p, AllotsSlots (bindParam (σ := σ) p) := by
    intro p
    unfold bindParam
    split
    · exact allotsSlots_bind (allotsSlots_newVariable _ _ _) fun v => allotsSlots_pure _
    · refine allotsSlots_bind (allotsSlots_newVariable _ _ _) fun holder => ?_
      refine allotsSlots_bind (allotsSlots_newVariable _ _ _) fun target => ?_
      exact allotsSlots_bind (allotsSlots_newVariable _ _ _) fun shared => allotsSlots_pure _
  induction params with
  | nil => exact allotsSlots_pure []
  | cons p params ih =>
    rw [List.mapM_cons]
    exact allotsSlots_bind (hparam p) fun a => allotsSlots_bind ih fun l => allotsSlots_pure _

theorem AllotsSlots.allots {x : Compiling σ α} (hx : AllotsSlots x) {answer : Except CompileError α}
    (h : x.run.run c = (answer, c')) : c.Allots c' := by
  have hensures := hx c
  rw [Ensures, h] at hensures
  cases answer with
  | ok a => exact hensures
  | error e => exact hensures

theorem allots_newVariable {type : ValueType} {request : SlotRequest} {target : Option Variable}
    {answer : Except CompileError Variable} (h : (newVariable type request target).run.run c = (answer, c')) :
    c.Allots c' := (allotsSlots_newVariable type request target).allots h

theorem allots_bindParams {params : List Param} {answer : Except CompileError (List (Variable × Arg))}
    (h : (params.mapM bindParam).run.run c = (answer, c')) : c.Allots c' := (allotsSlots_bindParams params).allots h

/-- The slot that a new variable owns is none that the pool had handed out before. -/
theorem newVariable_owns (type : ValueType) (request : SlotRequest) (target : Option Variable)
    (hordered : c.slots.Ordered) :
    Ensures (newVariable type request target) c
      (fun v c' => ∀ i, v.ownSlot? = some i → i ∉ c.slots.pooled ∧ (i ∈ c'.slots.pooled ∨ i ∈ c'.slots.reserved))
      fun _ => True := by
  unfold newVariable
  split
  · refine ensures_bind (ensures_bind (ensures_get (ensures_bind (ensures_lift (fun a ha => ?_) trivial))))
    exact ensures_bind (ensures_modify (ensures_pure (ensures_pure fun i hi => SlotAllocator.take_fresh hordered ha hi)))
  · split
    · exact ensures_bind (ensures_throw trivial)
    · -- an alias owns nothing
      exact ensures_pure fun i hi => nomatch hi
  · exact ensures_throw trivial

/-- The slots of parameters are none that were handed out before, and each has its own. -/
theorem owns_of_bindParams {params : List Param} {l : List (Variable × Arg)} {capacity : UInt64}
    (h : (params.mapM bindParam).run.run c = (.ok l, c')) (hvalid : c.slots.Valid capacity) :
    ((l.map (·.1)).filterMap Variable.ownSlot?).Nodup ∧ ∀ i ∈ (l.map (·.1)).filterMap Variable.ownSlot?,
      i ∈ c'.slots.pooled ∧ i ∉ c.slots.pooled ∧ i ∉ c.slots.reserved := by
  obtain ⟨-, slots, hpooled⟩ := (bindParams_ensures params c).of_ok h
  obtain ⟨hnodup, hfresh⟩ := hpooled.fresh hvalid.ordered
  have hcomes := (allots_bindParams h).slots
  rw [filterMap_of_map_eq hpooled.ownSlots]
  refine ⟨hnodup, fun i hi => ⟨hpooled.pooled i hi, hfresh i hi, fun hmem => ?_⟩⟩
  exact (hcomes.valid hvalid).disjoint (hpooled.pooled i hi) (hcomes.reserved hmem)

end Compiler

end ScratchMachine
