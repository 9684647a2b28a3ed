import ScratchMachine.SlotAllocator
import ScratchMachine.Proofs.Fallible

/-!
# Slots from the pool

The pool goes upward, so a slot that it hands out was not handed out before.

* `SlotAllocator.take_grows`: a request takes nothing back.
* `SlotAllocator.takePooled_fresh`: a slot from the pool is a new one.
-/

namespace ScratchMachine.SlotAllocator

variable {r r' r'' : SlotAllocator}

/-- The slots that the pool handed out lie below the place where it goes on. -/
def Ordered (r : SlotAllocator) : Prop := ∀ slot ∈ r.pooled, slot < r.next

/-- The pool goes on at a slot that there is, or after the last one. -/
def Bounded (r : SlotAllocator) : Prop := r.next ≤ r.capacity

/-- Requests lead from one allocator to another. -/
structure Grows (r r' : SlotAllocator) : Prop where
  pooled : r.pooled ⊆ r'.pooled
  ordered : r.Ordered → r'.Ordered
  capacity : r'.capacity = r.capacity
  bounded : r.Bounded → r'.Bounded

theorem Grows.refl (r : SlotAllocator) : r.Grows r := ⟨List.Subset.refl _, id, rfl, id⟩

theorem Grows.trans (h : r.Grows r') (h' : r'.Grows r'') : r.Grows r'' :=
  ⟨List.Subset.trans h.pooled h'.pooled, fun hr => h'.ordered (h.ordered hr), h'.capacity.trans h.capacity,
    fun hr => h'.bounded (h.bounded hr)⟩

theorem freeFrom?_bounds {candidate slot : UInt64} (h : r.freeFrom? candidate = some slot) :
    candidate ≤ slot ∧ slot < r.capacity := by
  fun_induction freeFrom? r candidate with
  | case1 candidate hlt hmem ih =>
    have hcap := r.capacity.toNat_lt
    obtain ⟨hle, hslot⟩ := ih h
    rw [UInt64.lt_iff_toNat_lt] at hlt
    rw [UInt64.le_iff_toNat_le, UInt64.toNat_add, UInt64.toNat_one, Nat.mod_eq_of_lt (by omega)] at hle
    exact ⟨UInt64.le_iff_toNat_le.2 (by omega), hslot⟩
  | case2 candidate hlt hmem =>
    cases h
    exact ⟨UInt64.le_refl _, hlt⟩
  | case3 candidate hlt => cases h

theorem takePooled_eq_ok {location : Location} (h : r.takePooled = .ok (location, r')) :
    ∃ slot, location = .pooled slot ∧ r.next ≤ slot ∧ slot < r'.next ∧ r'.pooled = slot :: r.pooled := by
  unfold takePooled at h
  split at h
  · rename_i slot hslot
    obtain ⟨hle, hlt⟩ := freeFrom?_bounds hslot
    cases h
    have hcap := r.capacity.toNat_lt
    rw [UInt64.lt_iff_toNat_lt] at hlt
    refine ⟨slot, rfl, hle, ?_, rfl⟩
    rw [UInt64.lt_iff_toNat_lt, UInt64.toNat_add, UInt64.toNat_one, Nat.mod_eq_of_lt (by omega)]
    omega
  · cases h

theorem takePooled_fresh (hr : r.Ordered) {location : Location} (h : r.takePooled = .ok (location, r')) :
    ∃ slot, location = .pooled slot ∧ slot ∉ r.pooled ∧ slot ∈ r'.pooled := by
  obtain ⟨slot, rfl, hle, -, hpooled⟩ := takePooled_eq_ok h
  refine ⟨slot, rfl, fun hmem => ?_, by simp [hpooled]⟩
  have hlt := hr slot hmem
  rw [UInt64.le_iff_toNat_le] at hle
  rw [UInt64.lt_iff_toNat_lt] at hlt
  omega

theorem takePooled_bounded {location : Location} (h : r.takePooled = .ok (location, r')) :
    r'.capacity = r.capacity ∧ r'.Bounded := by
  unfold takePooled at h
  split at h
  · rename_i slot hslot
    have hlt := (freeFrom?_bounds hslot).2
    cases h
    have hcap := r.capacity.toNat_lt
    rw [UInt64.lt_iff_toNat_lt] at hlt
    refine ⟨rfl, ?_⟩
    show slot + 1 ≤ r.capacity
    rw [UInt64.le_iff_toNat_le, UInt64.toNat_add, UInt64.toNat_one, Nat.mod_eq_of_lt (by omega)]
    omega
  · cases h

theorem takePooled_grows {location : Location} (h : r.takePooled = .ok (location, r')) : r.Grows r' := by
  obtain ⟨slot, -, hle, hlt, hpooled⟩ := takePooled_eq_ok h
  obtain ⟨hcapacity, hbounded⟩ := takePooled_bounded h
  refine ⟨by simp [hpooled], fun hr other hother => ?_, hcapacity, fun _ => hbounded⟩
  rw [hpooled, List.mem_cons] at hother
  rcases hother with rfl | hother
  · exact hlt
  · have hbelow := hr other hother
    rw [UInt64.lt_iff_toNat_lt] at hbelow hlt ⊢
    rw [UInt64.le_iff_toNat_le] at hle
    omega

/-- A request takes nothing back. -/
theorem take_grows {request : SlotRequest} {location : Location} (h : r.take request = .ok (location, r')) :
    r.Grows r' := by
  cases request with
  | pool => exact takePooled_grows h
  | fixed id =>
    simp only [take, takeFixed] at h
    split at h
    · split at h
      · cases h
      · cases h
        exact ⟨List.Subset.refl _, fun hr => hr, rfl, fun hr => hr⟩
    · cases h
  | computed index =>
    simp only [take, takeComputed] at h
    split at h
    · cases h
      exact .refl r
    · cases h

theorem ordered_empty (capacity : UInt64) : (empty capacity).Ordered := by
  intro slot hslot
  cases hslot

theorem bounded_empty (capacity : UInt64) : (empty capacity).Bounded := UInt64.zero_le

/-- So the slots that the pool handed out are among those that there are. -/
theorem Bounded.lt (h : r.Bounded) (hr : r.Ordered) {slot : UInt64} (hslot : slot ∈ r.pooled) : slot < r.capacity :=
  UInt64.lt_of_lt_of_le (hr slot hslot) h

end ScratchMachine.SlotAllocator
