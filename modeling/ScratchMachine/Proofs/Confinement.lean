import ScratchMachine.Proofs.Behaviour

/-!
# What lies below on the stack

An effect that works on the top of the stack only does the same whatever lies below, and leaves that as it is.  How
many values it takes and leaves is known for every operation; for behaviours it is a property of the number of values.

* `Operation.confined_behaviour`: an operation takes and leaves what the table of stack effects says.
-/

namespace ScratchMachine

open Fallible

/-- If there are `k` values on top of the stack, then what lies below does not matter to an effect and is not changed
by it.  If it succeeds, it leaves `j` values in place of the `k`. -/
def Effect.Confined {α : Type} (x : Effect α) (k j : Nat) : Prop :=
  ∀ ⦃us scratch⦄, us.length = k → ∃ r vs scratch', (∀ a, r = .ok a → vs.length = j) ∧
    ∀ below, x.run.run ⟨us ++ below, scratch⟩ = (r, ⟨vs ++ below, scratch'⟩)

namespace Effect

variable {α β : Type} {k j i : Nat}

/-! ### Effects -/

theorem confined_pure (a : α) (k : Nat) : Confined (pure a : Effect α) k k :=
  fun us scratch hus => ⟨.ok a, us, scratch, fun _ _ => hus, fun _ => rfl⟩

theorem confined_throw (fault : Fault) (k j : Nat) : Confined (throw fault : Effect α) k j :=
  fun us scratch _ => ⟨.error fault, us, scratch, fun _ h => (nomatch h), fun _ => rfl⟩

theorem Confined.bind {x : Effect α} {f : α → Effect β} (hx : Confined x k j) (hf : ∀ a, Confined (f a) j i) :
    Confined (x >>= f) k i := by
  intro us scratch hus
  obtain ⟨r, vs, mid, hvs, hrun⟩ := @hx us scratch hus
  cases r with
  | error fault =>
    refine ⟨.error fault, vs, mid, fun _ h => (nomatch h), fun below => ?_⟩
    rw [run_bind, hrun]
  | ok a =>
    obtain ⟨r, ws, scratch', hws, hrest⟩ := @hf a vs mid (hvs a rfl)
    refine ⟨r, ws, scratch', hws, fun below => ?_⟩
    rw [run_bind, hrun]
    exact hrest below

theorem Confined.discard {x : Effect α} (hx : Confined x k j) : Confined (discard x) k j :=
  hx.bind fun _ => confined_pure _ j

theorem confined_push (v : Value) (k : Nat) : Confined (push v) k (k + 1) :=
  fun us scratch hus => ⟨.ok (), v :: us, scratch, fun _ _ => by rw [List.length_cons, hus], fun _ => rfl⟩

theorem confined_pop (k : Nat) : Confined pop (k + 1) k := by
  intro us scratch hus
  cases us with
  | nil => cases hus
  | cons u us => exact ⟨.ok u, us, scratch, fun _ _ => Nat.succ.inj hus, fun _ => rfl⟩

theorem confined_popInteger (k : Nat) : Confined popInteger (k + 1) k := by
  refine (confined_pop k).bind fun v => ?_
  cases v with
  | uint n => exact confined_pure n k
  | bytes b => exact confined_throw _ k k

theorem confined_combine (f : UInt64 → UInt64 → Except Fault UInt64) (k : Nat) :
    Confined (combine f) (k + 2) (k + 1) := by
  -- with two values at hand the test for them passes, whatever lies below
  have hrest : Confined (do
      let b ← popInteger
      let a ← popInteger
      push (.uint (← f a b))) (k + 2) (k + 1) := by
    refine (confined_popInteger (k + 1)).bind fun b => (confined_popInteger k).bind fun a => ?_
    cases f a b with
    | error fault => exact (confined_throw fault k k).bind fun n => confined_push _ k
    | ok n => exact (confined_pure n k).bind fun n => confined_push _ k
  intro us scratch hus
  match us, hus with
  | u :: u' :: us, hus =>
    obtain ⟨r, vs, scratch', hvs, hrun⟩ := @hrest _ scratch hus
    exact ⟨r, vs, scratch', hvs, hrun⟩

theorem confined_compare (expected : Bool) (k : Nat) : Confined (compare expected) (k + 2) (k + 1) := by
  refine (confined_pop (k + 1)).bind fun b => (confined_pop k).bind fun a => ?_
  split
  · exact (confined_throw _ k k).bind fun _ => confined_push _ k
  · exact confined_push _ k

theorem confined_requireSlot (index : UInt64) (k : Nat) : Confined (requireSlot index) k k := by
  intro us scratch hus
  have hrun : ∀ below : List Value, (requireSlot index).run.run ⟨us ++ below, scratch⟩ =
      (if index.toNat < scratch.size then .ok () else .error (.slotOutOfRange index scratch.size),
        ⟨us ++ below, scratch⟩) := by
    intro below
    rw [requireSlot, run_bind, run_get]
    dsimp only
    split <;> rfl
  exact ⟨_, us, scratch, fun _ _ => hus, hrun⟩

theorem confined_readSlot (index : UInt64) (k : Nat) : Confined (readSlot index) k (k + 1) := by
  refine (confined_requireSlot index k).bind fun _ us scratch hus => ?_
  refine ⟨.ok (), scratch.getD index.toNat default :: us, scratch, fun _ _ => ?_, fun _ => rfl⟩
  rw [List.length_cons, hus]

theorem confined_writeSlot (index : UInt64) (v : Value) (k : Nat) : Confined (writeSlot index v) k k :=
  (confined_requireSlot index k).bind fun _ us scratch hus =>
    ⟨.ok (), us, scratch.setIfInBounds index.toNat v, fun _ _ => hus, fun _ => rfl⟩

end Effect

open Effect

/-! ### Operations -/

/-- An operation works on the top of the stack only, as the table of stack effects says. -/
theorem Operation.confined_execute {op : Operation} {effect : StackEffect} (h : op.stackEffect? = some effect) (k : Nat) :
    Confined op.execute (k + effect.pops) (k + effect.pushes) := by
  cases op with
  | int n => cases h; exact (confined_push _ k).bind fun _ => confined_pure _ _
  | byte b => cases h; exact (confined_push _ k).bind fun _ => confined_pure _ _
  | pop => cases h; exact (confined_pop k).discard.bind fun _ => confined_pure _ _
  | eq => cases h; exact (confined_compare _ k).bind fun _ => confined_pure _ _
  | ne => cases h; exact (confined_compare _ k).bind fun _ => confined_pure _ _
  | not =>
    cases h
    exact (confined_popInteger k).bind fun a => (confined_push _ k).bind fun _ => confined_pure _ _
  | load slot => cases h; exact (confined_readSlot slot k).bind fun _ => confined_pure _ _
  | store slot =>
    cases h
    exact (confined_pop k).bind fun v => (confined_writeSlot slot v k).bind fun _ => confined_pure _ _
  | loads =>
    cases h
    exact (confined_popInteger k).bind fun slot => (confined_readSlot slot k).bind fun _ => confined_pure _ _
  | stores =>
    cases h
    refine (confined_pop (k + 1)).bind fun v => (confined_popInteger k).bind fun slot => ?_
    exact (confined_writeSlot slot v k).bind fun _ => confined_pure _ _
  | jump offset => cases h; exact confined_pure _ k
  | jumpIfFalse offset => cases h; exact (confined_popInteger k).bind fun n => confined_pure _ k
  | switch offsets => cases h; exact (confined_popInteger k).bind fun i => confined_pure _ k
  | callsub id => cases h
  | retsub => cases h; exact confined_pure _ k
  | ret => cases h; exact (confined_pop k).bind fun v => confined_pure _ k
  | err => cases h; exact confined_throw _ k k
  | _ =>
    -- what is left are the operations on two integers
    cases h
    exact (confined_combine _ k).bind fun _ => confined_pure _ _

/-! ### Behaviours -/

/-- The program goes on, in the piece that follows or in the caller. -/
def Flow.goesOn : Flow → Bool
  | done | leave => true
  | halt _ | fault _ => false

/-- A program that has ended does not go on. -/
theorem Flow.elim_of_goesOn {flow : Flow} {p : Prop} (hends : flow.goesOn = false) (hgoes : flow.goesOn = true) : p :=
  absurd (hends.symm.trans hgoes) (by decide)

theorem Flow.elim_done {p : Prop} (hends : Flow.done.goesOn = false) : p := elim_of_goesOn hends rfl

namespace Behaviour

/-- If there are `k` values on top of the stack and control leaves in the given way, then the number of values in
their place has the property, and what lies below neither changed nor mattered. -/
def Confined (b : Behaviour) (flow : Flow) (k : Nat) (p : Nat → Prop) : Prop :=
  ∀ ⦃us below scratch stack scratch'⦄, us.length = k → b ⟨us ++ below, scratch⟩ flow ⟨stack, scratch'⟩ →
    ∃ vs, p vs.length ∧ stack = vs ++ below ∧ ∀ other, b ⟨us ++ other, scratch⟩ flow ⟨vs ++ other, scratch'⟩

variable {a b : Behaviour} {flow flow' : Flow} {k j : Nat} {p q : Nat → Prop}

theorem Confined.imp (h : b.Confined flow k p) (himp : ∀ n, p n → q n) : b.Confined flow k q := by
  intro us below scratch stack scratch' hus hb
  obtain ⟨vs, hvs, hrest⟩ := h hus hb
  exact ⟨vs, himp _ hvs, hrest⟩

/-- Past its end control goes on. -/
theorem Confined.past (h : b.Confined .done k fun n => Flow.done.goesOn = true → p n) : b.Confined .done k p :=
  h.imp fun _ hn => hn rfl

/-- More values on top of the stack stay where they are. -/
theorem Confined.above (h : b.Confined flow k p) (i : Nat) : b.Confined flow (i + k) fun n => ∃ m, p m ∧ n = i + m := by
  intro us below scratch stack scratch' hus hb
  have htake : (us.take k).length = k := by
    rw [List.length_take]
    omega
  rw [← List.take_append_drop k us, List.append_assoc] at hb
  obtain ⟨vs, hvs, hstack, hother⟩ := h htake hb
  refine ⟨vs ++ us.drop k, ⟨vs.length, hvs, ?_⟩, by rw [hstack, List.append_assoc], fun other => ?_⟩
  · rw [List.length_append, List.length_drop]
    omega
  · have hother := hother (us.drop k ++ other)
    rwa [← List.append_assoc, List.take_append_drop, ← List.append_assoc] at hother

theorem Confined.raise (h : b.Confined flow k p) (i : Nat) (himp : ∀ m, p m → q (i + m)) : b.Confined flow (i + k) q := by
  refine (h.above i).imp ?_
  rintro _ ⟨m, hm, rfl⟩
  exact himp m hm

theorem Confined.of_not (h : ∀ m m', ¬ b m flow m') : b.Confined flow k p :=
  fun _ _ _ _ _ _ hb => absurd hb (h _ _)

theorem confined_exit (h : flow = flow' → p k) : (exit flow').Confined flow k p := by
  rintro us below scratch stack scratch' hus ⟨hflow, hm⟩
  cases hm
  exact ⟨us, hus ▸ h hflow, rfl, fun _ => ⟨hflow, rfl⟩⟩

theorem confined_skip (h : flow = .done → p k) : skip.Confined flow k p := confined_exit h

theorem Confined.andThen (ha : a.Confined .done k p) (ha' : flow ≠ .done → a.Confined flow k q)
    (hb : ∀ n, p n → b.Confined flow n q) : (a.andThen b).Confined flow k q := by
  rintro us below scratch stack scratch' hus (⟨⟨midStack, midScratch⟩, hmid, hrest⟩ | ⟨hflow, hleft⟩)
  · obtain ⟨vs, hvs, rfl, hother⟩ := ha hus hmid
    obtain ⟨ws, hws, hstack, hother'⟩ := hb _ hvs rfl hrest
    exact ⟨ws, hws, hstack, fun other => .inl ⟨_, hother other, hother' other⟩⟩
  · obtain ⟨vs, hvs, hstack, hother⟩ := ha' hflow hus hleft
    exact ⟨vs, hvs, hstack, fun other => .inr ⟨hflow, hother other⟩⟩

theorem confined_perform {α : Type} {effect : Effect α} {next : α → Behaviour} (heffect : effect.Confined k j)
    (hnext : ∀ m a m', effect.run.run m = (.ok a, m') → (next a).Confined flow j p)
    (hfault : ∀ n, flow.goesOn = false → p n) : (perform effect next).Confined flow k p := by
  intro us below scratch stack scratch' hus h
  obtain ⟨r, vs, mid, hvs, hrun⟩ := @heffect us scratch hus
  cases r with
  | error fault =>
    rw [perform_error (hrun below)] at h
    obtain ⟨rfl, hmem⟩ := h
    cases hmem
    refine ⟨vs, hfault _ rfl, rfl, fun other => ?_⟩
    rw [perform_error (hrun other)]
    exact ⟨rfl, rfl⟩
  | ok a =>
    rw [perform_ok (hrun below)] at h
    obtain ⟨ws, hws, hstack, hother⟩ := hnext _ a _ (hrun below) (hvs a rfl) h
    refine ⟨ws, hws, hstack, fun other => ?_⟩
    rw [perform_ok (hrun other)]
    exact hother other

theorem confined_choose {yes no : Behaviour} (hyes : yes.Confined flow k p) (hno : no.Confined flow k p)
    (hfault : ∀ n, flow.goesOn = false → p n) : (choose yes no).Confined flow (k + 1) p := by
  refine confined_perform (confined_popInteger k) (fun _ n _ _ => ?_) hfault
  by_cases hn : n ≠ 0
  · rw [if_pos hn]
    exact hyes
  · rw [if_neg hn]
    exact hno

end Behaviour

open Behaviour

/-- If control gets past an operation, other than those of calls and returns, then there are as many values on the
stack as the table of stack effects says. -/
theorem Operation.confined_behaviour {op : Operation} {effect : StackEffect} (h : op.stackEffect? = some effect)
    (hretsub : op ≠ .retsub) {k : Nat} (hk : effect.pops ≤ k) (calls : Calls) (flow : Flow) :
    (op.behaviour calls).Confined flow k
      fun n => flow.goesOn = true → flow = .done ∧ op.isTerminal = false ∧ n = k - effect.pops + effect.pushes := by
  have heffect := confined_execute h (k - effect.pops)
  rw [Nat.sub_add_cancel hk] at heffect
  refine confined_perform heffect (fun m c m' hrun => ?_) fun n => Flow.elim_of_goesOn
  have hanswer := op.execute_answers m c m' hrun
  cases c with
  | advance => exact confined_skip fun hdone _ => ⟨hdone, hanswer.1, rfl⟩
  | jump offset => exact .of_not fun _ _ => id
  | call id =>
    obtain rfl : op = .callsub id := hanswer
    cases h
  | leave => exact absurd hanswer hretsub
  | halt v => exact confined_exit fun hflow => Flow.elim_of_goesOn (hflow ▸ rfl)

end ScratchMachine
