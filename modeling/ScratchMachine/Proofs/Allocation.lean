import Mathlib.Data.Finset.Card
import ScratchMachine.Proofs.Slots

/-!
# What an allocator has handed out

An allocator at work is followed together with the places that it has handed out since everything was last handed
back.  What it answers is told by these places alone: the pool hands out the least slot that nobody has, and a slot
can be had by number unless the pool has handed it out.

* `SlotAllocator.Work.Accounted`: how the state of the allocator comes from what it has handed out; every request
  keeps this (`SlotAllocator.Work.Accounted.serve`).
* `SlotAllocator.exact_after`: the answers after any course of requests.
-/

namespace ScratchMachine

/-- The slot, if the pool chose it. -/
def Location.fromPool? : Location → Option UInt64
  | pooled slot => some slot
  | fixed _ | computed _ => none

namespace SlotAllocator

/-- What may be asked of an allocator: a slot, another one in the place of a slot that is there, or to take everything
back. -/
inductive Ask where
  | take (request : SlotRequest)
  | share (target : Slot)
  | reset

/-- An allocator at work, and the places it has handed out since everything was last handed back, the last one
first. -/
structure Work where
  allocator : SlotAllocator
  handedOut : List Location

namespace Work

/-- The beginning, with so many slots. -/
def begin (capacity : UInt64) : Work := ⟨.empty capacity, []⟩

/-- The slot that answers what is asked, if there is one, and the work after that. -/
def serve (w : Work) : Ask → Except CompileError (Option Slot) × Work
  | .take request =>
    match w.allocator.take request with
    | .ok (location, allocator) => (.ok (some { location }), ⟨allocator, location :: w.handedOut⟩)
    | .error e => (.error e, w)
  | .share target => (.ok (some target.asAlias), w)
  | .reset => (.ok none, ⟨w.allocator.reset, []⟩)

/-- The work after everything that is asked in order. -/
def after (w : Work) (asked : List Ask) : Work := asked.foldl (fun w ask => (w.serve ask).2) w

/-- The numbers of the slots handed out, which may repeat. -/
def slots (w : Work) : List UInt64 := w.handedOut.filterMap Location.index?

end Work

/-! ### The search for a free slot -/

variable {r : SlotAllocator}

theorem freeFrom?_eq_some {candidate slot : UInt64} (h : r.freeFrom? candidate = some slot) :
    slot ∉ r.reserved ∧ ∀ i, candidate ≤ i → i < slot → i ∈ r.reserved := by
  fun_induction freeFrom? r candidate with
  | case1 candidate hlt hmem ih =>
    obtain ⟨hfree, hskipped⟩ := ih h
    refine ⟨hfree, fun i hle hi => ?_⟩
    by_cases heq : candidate = i
    · exact heq ▸ hmem
    · exact hskipped i (by grind) hi
  | case2 candidate hlt hmem =>
    cases h
    exact ⟨hmem, fun i hle hi => by grind⟩
  | case3 candidate hlt => cases h

theorem freeFrom?_eq_none {candidate : UInt64} (h : r.freeFrom? candidate = none) {i : UInt64} (hle : candidate ≤ i)
    (hi : i < r.capacity) : i ∈ r.reserved := by
  fun_induction freeFrom? r candidate with
  | case1 candidate hlt hmem ih =>
    by_cases heq : candidate = i
    · exact heq ▸ hmem
    · exact ih h (by grind)
  | case2 candidate hlt hmem => cases h
  | case3 candidate hlt => grind

/-! ### The account -/

namespace Work

variable {w : Work} {capacity : UInt64}

/-- The state of the allocator as it comes from what has been handed out. -/
structure Accounted (w : Work) (capacity : UInt64) : Prop where
  size : w.allocator.capacity = capacity
  pooled : w.allocator.pooled = w.handedOut.filterMap Location.fromPool?
  reserved : ∀ i, i ∈ w.allocator.reserved ↔ .fixed i ∈ w.handedOut
  nodup : w.allocator.reserved.Nodup
  below : ∀ i ∈ w.slots, i < capacity
  descending : w.allocator.pooled.Pairwise (· > ·)
  disjoint : ∀ i ∈ w.allocator.pooled, i ∉ w.allocator.reserved
  ordered : w.allocator.Ordered
  /-- Nothing below the place where the pool goes on is free. -/
  filled : ∀ i, i < w.allocator.next → i ∈ w.slots

theorem mem_fromPool_iff {i : UInt64} : i ∈ w.handedOut.filterMap Location.fromPool? ↔ .pooled i ∈ w.handedOut := by
  rw [List.mem_filterMap]
  constructor
  · rintro ⟨location, hmem, hlocation⟩
    cases location with
    | pooled slot => cases hlocation; exact hmem
    | fixed slot => cases hlocation
    | computed index => cases hlocation
  · exact fun h => ⟨_, h, rfl⟩

theorem mem_slots_iff {i : UInt64} : i ∈ w.slots ↔ .pooled i ∈ w.handedOut ∨ .fixed i ∈ w.handedOut := by
  rw [slots, List.mem_filterMap]
  constructor
  · rintro ⟨location, hmem, hlocation⟩
    cases location with
    | pooled slot => cases hlocation; exact .inl hmem
    | fixed slot => cases hlocation; exact .inr hmem
    | computed index => cases hlocation
  · rintro (h | h)
    · exact ⟨_, h, rfl⟩
    · exact ⟨_, h, rfl⟩

theorem accounted_begin (capacity : UInt64) : (begin capacity).Accounted capacity where
  size := rfl
  pooled := rfl
  reserved := by simp [begin, empty]
  nodup := .nil
  below := by simp [begin, slots]
  descending := .nil
  disjoint := by simp [begin, empty]
  ordered := ordered_empty capacity
  filled := fun i hi => absurd (UInt64.lt_iff_toNat_lt.1 hi) (Nat.not_lt_zero _)

namespace Accounted

theorem mem_pooled_iff (h : w.Accounted capacity) {i : UInt64} :
    i ∈ w.allocator.pooled ↔ .pooled i ∈ w.handedOut := by rw [h.pooled, mem_fromPool_iff]

theorem mem_slots_iff (h : w.Accounted capacity) {i : UInt64} :
    i ∈ w.slots ↔ i ∈ w.allocator.pooled ∨ i ∈ w.allocator.reserved := by
  rw [Work.mem_slots_iff, h.mem_pooled_iff, h.reserved]

/-- What the pool hands out next is the least slot that has not been handed out. -/
theorem least_of_freeFrom? (h : w.Accounted capacity) {slot : UInt64}
    (hslot : w.allocator.freeFrom? w.allocator.next = some slot) :
    slot < capacity ∧ slot ∉ w.slots ∧ ∀ i, i < slot → i ∈ w.slots := by
  obtain ⟨hle, hlt⟩ := freeFrom?_bounds hslot
  obtain ⟨hfree, hskipped⟩ := freeFrom?_eq_some hslot
  refine ⟨h.size ▸ hlt, fun hmem => ?_, fun i hi => ?_⟩
  · rcases h.mem_slots_iff.1 hmem with hpooled | hreserved
    · have hbelow := h.ordered slot hpooled
      grind
    · exact hfree hreserved
  · by_cases hi' : i < w.allocator.next
    · exact h.filled i hi'
    · exact h.mem_slots_iff.2 (.inr (hskipped i (by grind) hi))

theorem full_of_freeFrom? (h : w.Accounted capacity) (hnone : w.allocator.freeFrom? w.allocator.next = none) :
    ∀ i, i < capacity → i ∈ w.slots := by
  intro i hi
  by_cases hi' : i < w.allocator.next
  · exact h.filled i hi'
  · exact h.mem_slots_iff.2 (.inr (freeFrom?_eq_none hnone (by grind) (h.size ▸ hi)))

/-! ### Every request keeps the account -/

theorem takePooled (h : w.Accounted capacity) {slot : UInt64}
    (hslot : w.allocator.freeFrom? w.allocator.next = some slot) :
    Accounted ⟨{ w.allocator with next := slot + 1, pooled := slot :: w.allocator.pooled }, .pooled slot :: w.handedOut⟩
      capacity := by
  obtain ⟨hlt, hfresh, hleast⟩ := h.least_of_freeFrom? hslot
  have hle := (freeFrom?_bounds hslot).1
  have hfresh' : slot ∉ w.allocator.pooled ∧ slot ∉ w.allocator.reserved := by
    rwa [h.mem_slots_iff, not_or] at hfresh
  refine { h with pooled := ?_, reserved := ?_, below := ?_, descending := ?_, disjoint := ?_, ordered := ?_, filled := ?_ }
  · simp [h.pooled, Location.fromPool?]
  · simpa using h.reserved
  · intro i hi
    rcases List.mem_cons.1 hi with rfl | hi
    · exact hlt
    · exact h.below i hi
  · exact List.pairwise_cons.2 ⟨fun i hi => by have := h.ordered i hi; grind, h.descending⟩
  · intro i hi
    rcases List.mem_cons.1 hi with rfl | hi
    · exact hfresh'.2
    · exact h.disjoint i hi
  · intro i hi
    rcases List.mem_cons.1 hi with rfl | hi
    · grind
    · have := h.ordered i hi
      grind
  · intro i hi
    by_cases heq : i = slot
    · exact heq ▸ List.mem_cons_self ..
    · exact List.mem_cons_of_mem _ (hleast i (by grind))

theorem takeFixed (h : w.Accounted capacity) {slot : UInt64} (hlt : slot < capacity)
    (hpool : slot ∉ w.allocator.pooled) :
    Accounted ⟨{ w.allocator with reserved := w.allocator.reserved.insert slot }, .fixed slot :: w.handedOut⟩
      capacity := by
  refine { h with pooled := ?_, reserved := ?_, nodup := ?_, below := ?_, disjoint := ?_, filled := ?_ }
  · exact h.pooled
  · intro i
    rw [List.mem_insert_iff, List.mem_cons, h.reserved, Location.fixed.injEq]
  · exact h.nodup.insert
  · intro i hi
    rcases List.mem_cons.1 hi with rfl | hi
    · exact hlt
    · exact h.below i hi
  · intro i hi hmem
    rcases List.mem_insert_iff.1 hmem with rfl | hmem
    · exact hpool hi
    · exact h.disjoint i hi hmem
  · exact fun i hi => List.mem_cons_of_mem _ (h.filled i hi)

theorem takeComputed (h : w.Accounted capacity) (index : Expr) :
    Accounted ⟨w.allocator, .computed index :: w.handedOut⟩ capacity := by
  refine { h with pooled := ?_, reserved := ?_, below := ?_, filled := ?_ }
  · exact h.pooled
  · simpa using h.reserved
  · exact h.below
  · exact h.filled

theorem reset (h : w.Accounted capacity) : Accounted ⟨w.allocator.reset, []⟩ capacity := by
  rw [SlotAllocator.reset, h.size]
  exact accounted_begin capacity

theorem serve (h : w.Accounted capacity) (ask : Ask) : (w.serve ask).2.Accounted capacity := by
  cases ask with
  | share target => exact h
  | reset => exact h.reset
  | take request =>
    rw [Work.serve]
    cases htake : w.allocator.take request with
    | error e => exact h
    | ok answer =>
      obtain ⟨location, allocator⟩ := answer
      cases request with
      | pool =>
        simp only [take, SlotAllocator.takePooled] at htake
        split at htake
        · rename_i slot hslot
          cases htake
          exact h.takePooled hslot
        · cases htake
      | fixed id =>
        simp only [take, SlotAllocator.takeFixed] at htake
        split at htake
        · rename_i hrange
          split at htake
          · cases htake
          · rename_i hpool
            cases htake
            refine h.takeFixed ?_ hpool
            have hcapacity := w.allocator.capacity.toNat_lt
            have hword : id.toNat < 2 ^ 64 := by omega
            rw [← h.size, UInt64.lt_iff_toNat_lt, UInt64.toNat_ofNat_of_lt' hword]
            omega
        · cases htake
      | computed index =>
        simp only [take, SlotAllocator.takeComputed] at htake
        split at htake
        · cases htake
          exact h.takeComputed index
        · cases htake

theorem after (h : w.Accounted capacity) (asked : List Ask) : (w.after asked).Accounted capacity := by
  induction asked generalizing w with
  | nil => exact h
  | cons ask rest ih => exact ih (h.serve ask)

/-! ### The number of slots -/

theorem used_eq (h : w.Accounted capacity) : w.allocator.used = w.slots.toFinset.card := by
  have hunion : w.slots.toFinset = w.allocator.reserved.toFinset ∪ w.allocator.pooled.toFinset := by
    ext i
    rw [Finset.mem_union, List.mem_toFinset, List.mem_toFinset, List.mem_toFinset, h.mem_slots_iff, or_comm]
  have hpooled : w.allocator.pooled.Nodup := h.descending.imp fun hlt heq => by grind
  have hdisjoint : Disjoint w.allocator.reserved.toFinset w.allocator.pooled.toFinset := by
    rw [Finset.disjoint_left]
    intro i hreserved hpool
    exact h.disjoint i (List.mem_toFinset.1 hpool) (List.mem_toFinset.1 hreserved)
  rw [hunion, Finset.card_union_of_disjoint hdisjoint, List.toFinset_card_of_nodup h.nodup,
    List.toFinset_card_of_nodup hpooled, used]

theorem card_slots_le (h : w.Accounted capacity) : w.slots.toFinset.card ≤ capacity.toNat := by
  have hinto : ∀ i ∈ w.slots.toFinset, i.toNat ∈ Finset.range capacity.toNat := by
    intro i hi
    exact Finset.mem_range.2 (UInt64.lt_iff_toNat_lt.1 (h.below i (List.mem_toFinset.1 hi)))
  have hcard := Finset.card_le_card_of_injOn UInt64.toNat hinto fun i _ j _ heq => UInt64.toNat_inj.1 heq
  rwa [Finset.card_range] at hcard

end Accounted

/-! ### Answers -/

/-- What is true of the answers of an allocator with so many slots that has handed out these places. -/
structure Exact (w : Work) (capacity : UInt64) : Prop where
  below : ∀ i ∈ w.slots, i < capacity
  disjoint : ∀ i, .pooled i ∈ w.handedOut → .fixed i ∉ w.handedOut
  /-- The last slot from the pool is the greatest, and so it has been with those before. -/
  increasing : (w.handedOut.filterMap Location.fromPool?).Pairwise (· > ·)
  /-- The pool hands out the least slot that nobody has. -/
  pool_ok : ∀ location, (∃ r, w.allocator.take .pool = .ok (location, r)) ↔
    ∃ i, location = .pooled i ∧ i < capacity ∧ i ∉ w.slots ∧ ∀ j, j < i → j ∈ w.slots
  pool_error : (∃ e, w.allocator.take .pool = .error e ∧ e.kind = .allocation) ↔ ∀ i, i < capacity → i ∈ w.slots
  fixed_ok : ∀ (id : Int) (location : Location), (∃ r, w.allocator.take (.fixed id) = .ok (location, r)) ↔
    ∃ i : UInt64, location = .fixed i ∧ id = i.toNat ∧ i < capacity ∧ .pooled i ∉ w.handedOut
  used : w.allocator.used = w.slots.toFinset.card ∧ w.allocator.used ≤ capacity.toNat
  refused : ∀ ask e, (w.serve ask).1 = .error e → (w.serve ask).2.allocator = w.allocator
  computed : ∀ index, (w.serve (.take (.computed index))).2.allocator = w.allocator
  shared : ∀ target, (w.serve (.share target)).2.allocator = w.allocator

theorem Accounted.pool_ok (h : w.Accounted capacity) (location : Location) :
    (∃ r, w.allocator.take .pool = .ok (location, r)) ↔
      ∃ i, location = .pooled i ∧ i < capacity ∧ i ∉ w.slots ∧ ∀ j, j < i → j ∈ w.slots := by
  rw [take, SlotAllocator.takePooled]
  constructor
  · rintro ⟨r, hr⟩
    split at hr
    · rename_i slot hslot
      cases hr
      exact ⟨slot, rfl, h.least_of_freeFrom? hslot⟩
    · cases hr
  · rintro ⟨i, rfl, hlt, hfree, hleast⟩
    cases hslot : w.allocator.freeFrom? w.allocator.next with
    | none => exact absurd (h.full_of_freeFrom? hslot i hlt) hfree
    | some slot =>
      -- two slots that are the least are the same
      obtain ⟨-, hfree', hleast'⟩ := h.least_of_freeFrom? hslot
      have hge : ¬ i < slot := fun hi => hfree (hleast' i hi)
      have hle : ¬ slot < i := fun hi => hfree' (hleast slot hi)
      obtain rfl : slot = i := by grind
      exact ⟨_, rfl⟩

theorem Accounted.pool_error (h : w.Accounted capacity) :
    (∃ e, w.allocator.take .pool = .error e ∧ e.kind = .allocation) ↔ ∀ i, i < capacity → i ∈ w.slots := by
  rw [take, SlotAllocator.takePooled]
  constructor
  · rintro ⟨e, he, -⟩
    split at he
    · cases he
    · rename_i hnone
      exact h.full_of_freeFrom? hnone
  · intro hfull
    cases hslot : w.allocator.freeFrom? w.allocator.next with
    | none => exact ⟨_, rfl, rfl⟩
    | some slot =>
      obtain ⟨hlt, hfree, -⟩ := h.least_of_freeFrom? hslot
      exact absurd (hfull slot hlt) hfree

theorem Accounted.fixed_ok (h : w.Accounted capacity) (id : Int) (location : Location) :
    (∃ r, w.allocator.take (.fixed id) = .ok (location, r)) ↔
      ∃ i : UInt64, location = .fixed i ∧ id = i.toNat ∧ i < capacity ∧ .pooled i ∉ w.handedOut := by
  have hcapacity := capacity.toNat_lt
  rw [take, SlotAllocator.takeFixed, h.size]
  constructor
  · rintro ⟨r, hr⟩
    split at hr
    · rename_i hrange
      dsimp only at hr
      split at hr
      · cases hr
      · rename_i hpool
        cases hr
        have hword : id.toNat < 2 ^ 64 := by omega
        have hnat : (UInt64.ofNat id.toNat).toNat = id.toNat := UInt64.toNat_ofNat_of_lt' hword
        refine ⟨_, rfl, by omega, UInt64.lt_iff_toNat_lt.2 (by omega), ?_⟩
        rwa [← h.mem_pooled_iff]
    · cases hr
  · rintro ⟨i, rfl, rfl, hlt, hpool⟩
    rw [UInt64.lt_iff_toNat_lt] at hlt
    rw [if_pos (by omega)]
    dsimp only
    rw [Int.toNat_natCast, UInt64.ofNat_toNat, if_neg (by rwa [h.mem_pooled_iff])]
    exact ⟨_, rfl⟩

theorem serve_refused {ask : Ask} {e : CompileError} (he : (w.serve ask).1 = .error e) :
    (w.serve ask).2.allocator = w.allocator := by
  cases ask with
  | take request =>
    rw [serve] at he ⊢
    split at he
    · cases he
    · rfl
  | share target => cases he
  | reset => cases he

theorem serve_computed (index : Expr) : (w.serve (.take (.computed index))).2.allocator = w.allocator := by
  rw [serve, take, takeComputed]
  split
  · rename_i location allocator h
    split at h
    · cases h
      rfl
    · cases h
  · rfl

end Work

/-- After any course of requests the answers of an allocator are exact. -/
theorem exact_after (capacity : UInt64) (asked : List Ask) :
    ((Work.begin capacity).after asked).Exact capacity := by
  have h := (Work.accounted_begin capacity).after asked
  exact {
    below := h.below
    disjoint := fun i hpool hfixed => h.disjoint i (h.mem_pooled_iff.2 hpool) ((h.reserved i).2 hfixed)
    increasing := h.pooled ▸ h.descending
    pool_ok := h.pool_ok
    pool_error := h.pool_error
    fixed_ok := h.fixed_ok
    used := ⟨h.used_eq, h.used_eq ▸ h.card_slots_le⟩
    refused := fun _ _ => Work.serve_refused
    computed := Work.serve_computed
    shared := fun _ => rfl }

end SlotAllocator

end ScratchMachine
