import ScratchMachine.Proofs.Replacement

/-!
# Detours to slots

An access that takes the number of its slot off the stack does what the access by number does, but while the value to
be stored is evaluated, the number waits below everything on the stack.  An expression does not look below what it
has put on the stack itself, so it does the same there.

* `Behaviour.Mirrors`: one behaviour does what another does, as far as can be seen from without.
* `Expr.Replaces.mirrors`: a tree does what it does with detours, and the other way round.
-/

namespace ScratchMachine

open Behaviour Effect

/-! ### Behaviours alike from without -/

namespace Behaviour

/-- Whatever the first behaviour does, the second does too: it leaves in the same way and with the same slots, and past
its end with the same memory. -/
def Mirrors (b b' : Behaviour) : Prop :=
  ∀ m f mem, b m f mem → ∃ mem', b' m f mem' ∧ mem'.scratch = mem.scratch ∧ (f = .done → mem' = mem)

namespace Mirrors

variable {a a' b b' b'' : Behaviour}

theorem refl (b : Behaviour) : b.Mirrors b := fun _ _ mem h => ⟨mem, h, rfl, fun _ => rfl⟩

theorem trans (h : b.Mirrors b') (h' : b'.Mirrors b'') : b.Mirrors b'' := by
  intro m f mem hb
  obtain ⟨mem', hb', hscratch, hdone⟩ := h m f mem hb
  obtain ⟨mem'', hb'', hscratch', hdone'⟩ := h' m f mem' hb'
  exact ⟨mem'', hb'', hscratch'.trans hscratch, fun hf => (hdone' hf).trans (hdone hf)⟩

theorem andThen (ha : a.Mirrors a') (hb : b.Mirrors b') : (a.andThen b).Mirrors (a'.andThen b') := by
  rintro m f mem (⟨mid, hmid, hrest⟩ | ⟨hf, hleft⟩)
  · obtain ⟨mid', hmid', -, hsame⟩ := ha m .done mid hmid
    obtain rfl := hsame rfl
    obtain ⟨mem', hrest', hmem'⟩ := hb mid' f mem hrest
    exact ⟨mem', .inl ⟨mid', hmid', hrest'⟩, hmem'⟩
  · obtain ⟨mem', hleft', hmem'⟩ := ha m f mem hleft
    exact ⟨mem', .inr ⟨hf, hleft'⟩, hmem'⟩

theorem perform {α : Type} (effect : Effect α) {next next' : α → Behaviour} (h : ∀ a, (next a).Mirrors (next' a)) :
    (perform effect next).Mirrors (Behaviour.perform effect next') := by
  intro m f mem hm
  rcases hrun : effect.run.run m with ⟨fault | a, mid⟩
  · rw [perform_error hrun] at hm ⊢
    exact ⟨mem, hm, rfl, fun _ => rfl⟩
  · rw [perform_ok hrun] at hm ⊢
    exact h a mid f mem hm

theorem choose (ha : a.Mirrors a') (hb : b.Mirrors b') : (choose a b).Mirrors (Behaviour.choose a' b') := by
  refine perform _ fun n => ?_
  split
  · exact ha
  · exact hb

end Mirrors

end Behaviour

namespace Expr

variable {calls : Calls} {inSubroutine : Bool} {e e' : Expr}

theorem mirrors_behaviourAll {es es' : List Expr}
    (h : List.Forall₂ (fun e e' => (e.behaviour calls inSubroutine).Mirrors (e'.behaviour calls inSubroutine)) es es') :
    (behaviourAll calls inSubroutine es).Mirrors (behaviourAll calls inSubroutine es') := by
  induction h with
  | nil => exact .refl _
  | cons hfirst _ ih =>
    rw [behaviourAll, behaviourAll]
    exact hfirst.andThen ih

/-- A node does what it does with other parts if the parts do. -/
theorem SameNode.mirrors (h : SameNode e e')
    (hparts : List.Forall₂ (fun q q' => (q.behaviour calls inSubroutine).Mirrors (q'.behaviour calls inSubroutine))
      e.parts e'.parts) :
    (e.behaviour calls inSubroutine).Mirrors (e'.behaviour calls inSubroutine) := by
  cases h with
  | op =>
    rw [Expr.behaviour, Expr.behaviour]
    exact (mirrors_behaviourAll hparts).andThen (.refl _)
  | seq =>
    rw [Expr.behaviour, Expr.behaviour]
    exact mirrors_behaviourAll hparts
  | ifThen =>
    obtain _ | ⟨hcond, _ | ⟨hbody, -⟩⟩ := hparts
    rw [Expr.behaviour, Expr.behaviour]
    exact hcond.andThen (hbody.choose (.refl _))
  | ifElse =>
    obtain _ | ⟨hcond, _ | ⟨hyes, _ | ⟨hno, -⟩⟩⟩ := hparts
    rw [Expr.behaviour, Expr.behaviour]
    exact hcond.andThen (hyes.choose hno)
  | ret =>
    obtain _ | ⟨hvalue, -⟩ := hparts
    rw [Expr.behaviour, Expr.behaviour]
    exact hvalue.andThen (.refl _)

theorem SameNode.symm (h : SameNode e e') : SameNode e' e := by
  cases h with
  | op => exact .op
  | seq => exact .seq
  | ifThen => exact .ifThen
  | ifElse => exact .ifElse
  | ret => exact .ret

/-! ### One access -/

theorem behaviour_loads (slot : UInt64) (type : ValueType) :
    (Expr.op .loads [.int slot] type false).behaviour calls inSubroutine =
      (Expr.op (.load slot) [] type false).behaviour calls inSubroutine := by
  rw [Expr.behaviour, Expr.behaviour, behaviourAll, behaviourAll, behaviourAll, andThen_skip, skip_andThen,
    Expr.behaviour, perform_andThen]
  simp only [skip_andThen, Operation.behaviour]
  rw [← perform_bind]
  rfl

/-- With the number of the slot below the value, the operations that set it do the same. -/
theorem behaviour_stores (slot : UInt64) (v : Value) (stack : List Value) (scratch : Array Value) :
    Operation.stores.behaviour calls ⟨v :: .uint slot :: stack, scratch⟩ =
      (Operation.store slot).behaviour calls ⟨v :: stack, scratch⟩ := by
  have hrun : Operation.stores.execute.run.run ⟨v :: .uint slot :: stack, scratch⟩ =
      (Operation.store slot).execute.run.run ⟨v :: stack, scratch⟩ := rfl
  funext f m'
  rw [Operation.behaviour, Operation.behaviour, Behaviour.perform, Behaviour.perform, hrun]

section Store

variable {current : Option Subroutine} {slot : UInt64} {value : Expr}

/-- While the value is evaluated, the number of the slot waits below. -/
theorem behaviour_store_detour {m mem : Memory} {f : Flow} :
    (Expr.op .stores [.int slot, value] .none false).behaviour calls inSubroutine m f mem ↔
      ((value.behaviour calls inSubroutine).andThen (Operation.stores.behaviour calls))
        ⟨.uint slot :: m.stack, m.scratch⟩ f mem := by
  have hpush : (push (.uint slot)).run.run m = (.ok (), ⟨.uint slot :: m.stack, m.scratch⟩) := rfl
  rw [Expr.behaviour, behaviourAll, behaviourAll, behaviourAll, andThen_skip, Expr.behaviour, perform_andThen,
    perform_andThen, perform_ok hpush, skip_andThen]

theorem behaviour_store :
    (Expr.op (.store slot) [value] .none false).behaviour calls inSubroutine =
      (value.behaviour calls inSubroutine).andThen ((Operation.store slot).behaviour calls) := by
  rw [Expr.behaviour, behaviourAll, behaviourAll, andThen_skip]

/-- An honest value does the same whether or not the number of the slot waits below, and if control gets past it then it
is one. -/
theorem framed_value (hvalue : value.Everywhere (Orderly current fun _ => False)) (hhonest : value.Honest)
    (htype : value.type ≠ .none) (hcurrent : inSubroutine = current.isSome) {below stack : List Value}
    {scratch scratch' : Array Value} {f : Flow}
    (h : value.behaviour calls inSubroutine ⟨below, scratch⟩ f ⟨stack, scratch'⟩) :
    ∃ vs, stack = vs ++ below ∧ (f = .done → vs.length = 1) ∧
      ∀ other, value.behaviour calls inSubroutine ⟨other, scratch⟩ f ⟨vs ++ other, scratch'⟩ := by
  let counts : Counts := fun _ _ => False
  have hframed : (value.behaviour calls inSubroutine).Confined f 0 fun n =>
      f.goesOn = true → value.Leaves counts f n :=
    framed_behaviour hvalue (fun s hs => hs.elim) fun _ => ⟨hcurrent, fun s hs => hs.elim⟩
  obtain ⟨vs, hleaves, hstack, hother⟩ := @hframed [] below scratch stack scratch' rfl h
  refine ⟨vs, hstack, fun hdone => ?_, hother⟩
  subst hdone
  have hexact : vs.length = value.type.size := exact_of_honest hhonest hvalue (fun s hs => hs.elim) _ (hleaves rfl)
  rwa [ValueType.size_eq_one htype] at hexact

variable (hvalue : value.Everywhere (Orderly current fun _ => False)) (hhonest : value.Honest)
  (htype : value.type ≠ .none) (hcurrent : inSubroutine = current.isSome)

include hvalue hhonest htype hcurrent

theorem mirrors_store :
    ((Expr.op (.store slot) [value] .none false).behaviour calls inSubroutine).Mirrors
      ((Expr.op .stores [.int slot, value] .none false).behaviour calls inSubroutine) := by
  rintro ⟨stack, scratch⟩ f mem h
  simp only [behaviour_store_detour]
  rw [behaviour_store] at h
  rcases h with ⟨⟨mid, midScratch⟩, hmid, hstore⟩ | ⟨hf, hleft⟩
  · obtain ⟨vs, rfl, hone, hother⟩ := framed_value hvalue hhonest htype hcurrent hmid
    obtain ⟨v, rfl⟩ := List.length_eq_one_iff.1 (hone rfl)
    refine ⟨mem, .inl ⟨_, hother _, ?_⟩, rfl, fun _ => rfl⟩
    rw [List.singleton_append, behaviour_stores]
    exact hstore
  · obtain ⟨leftStack, leftScratch⟩ := mem
    obtain ⟨vs, -, -, hother⟩ := framed_value hvalue hhonest htype hcurrent hleft
    exact ⟨_, .inr ⟨hf, hother _⟩, rfl, fun hdone => absurd hdone hf⟩

theorem mirrors_store_detour :
    ((Expr.op .stores [.int slot, value] .none false).behaviour calls inSubroutine).Mirrors
      ((Expr.op (.store slot) [value] .none false).behaviour calls inSubroutine) := by
  rintro ⟨stack, scratch⟩ f mem h
  rw [behaviour_store_detour] at h
  rw [behaviour_store]
  rcases h with ⟨⟨mid, midScratch⟩, hmid, hstores⟩ | ⟨hf, hleft⟩
  · obtain ⟨vs, rfl, hone, hother⟩ := framed_value hvalue hhonest htype hcurrent hmid
    obtain ⟨v, rfl⟩ := List.length_eq_one_iff.1 (hone rfl)
    rw [List.singleton_append, behaviour_stores] at hstores
    exact ⟨mem, .inl ⟨_, hother stack, hstores⟩, rfl, fun _ => rfl⟩
  · obtain ⟨leftStack, leftScratch⟩ := mem
    obtain ⟨vs, -, -, hother⟩ := framed_value hvalue hhonest htype hcurrent hleft
    exact ⟨_, .inr ⟨hf, hother stack⟩, rfl, fun hdone => absurd hdone hf⟩

end Store

/-! ### Detours anywhere in a tree -/

/-- A tree and the tree with a detour mirror each other. -/
theorem Replaces.mirrors {current : Option Subroutine} (h : Replaces Detour e e')
    (he : e.Everywhere (Orderly current fun _ => False)) (hcurrent : inSubroutine = current.isSome) :
    (e.behaviour calls inSubroutine).Mirrors (e'.behaviour calls inSubroutine) ∧
      (e'.behaviour calls inSubroutine).Mirrors (e.behaviour calls inSubroutine) := by
  induction h with
  | here h =>
    cases h with
    | load slot type =>
      rw [behaviour_loads]
      exact ⟨.refl _, .refl _⟩
    | @store slot value hhonest =>
      have hvalue := he.part (q := value) (by simp [parts])
      have htype := he.here.fits.2.1 value (by simp)
      exact ⟨mirrors_store hvalue hhonest htype hcurrent, mirrors_store_detour hvalue hhonest htype hcurrent⟩
  | @part e e' part part' before after hsame hparts hparts' _ ih =>
    obtain ⟨hforth, hback⟩ := ih (he.part (by rw [hparts]; simp))
    refine ⟨hsame.mirrors ?_, hsame.symm.mirrors ?_⟩
    · rw [hparts, hparts']
      exact forall₂_split (fun _ => .refl _) hforth _ _
    · rw [hparts, hparts']
      exact forall₂_split (R := fun q q' => (q.behaviour calls inSubroutine).Mirrors (q'.behaviour calls inSubroutine))
        (fun _ => .refl _) hback _ _

/-- Without a call, a tree does the same whatever the calls do. -/
theorem behaviour_eq_of_callFree (hfits : e.Everywhere FitsStack) (hfree : e.CallFree) (calls calls' : Calls)
    (inSubroutine : Bool) : e.behaviour calls inSubroutine = e.behaviour calls' inSubroutine := by
  have hall : ∀ es : List Expr, (∀ q ∈ es, q.behaviour calls inSubroutine = q.behaviour calls' inSubroutine) →
      behaviourAll calls inSubroutine es = behaviourAll calls' inSubroutine es := by
    intro es hes
    induction es with
    | nil => rw [behaviourAll, behaviourAll]
    | cons q es ih =>
      obtain ⟨hq, hes⟩ := List.forall_mem_cons.1 hes
      rw [behaviourAll, behaviourAll, hq, ih hes]
  induction e using Expr.induction with
  | int n => rw [Expr.behaviour, Expr.behaviour]
  | bytes b => rw [Expr.behaviour, Expr.behaviour]
  | op o args type returns ih =>
    obtain ⟨⟨-, -, -, hcallsub⟩, -⟩ := hfits.here
    have hop : o.behaviour calls = o.behaviour calls' := by
      refine perform_congr fun m a m' hrun => ?_
      have hanswer := o.execute_answers m a m' hrun
      cases a with
      | call id => exact absurd hanswer (hcallsub id)
      | _ => rfl
    rw [Expr.behaviour, Expr.behaviour, hall args fun q hq => ih q hq (hfits.part hq) (hfree.part hq), hop]
  | seq items ih =>
    rw [Expr.behaviour, Expr.behaviour, hall items fun q hq => ih q hq (hfits.part hq) (hfree.part hq)]
  | ifThen cond body ihcond ihbody =>
    rw [Expr.behaviour, Expr.behaviour, ihcond (hfits.part (by simp [parts])) (hfree.part (by simp [parts])),
      ihbody (hfits.part (by simp [parts])) (hfree.part (by simp [parts]))]
  | ifElse cond yes no ihcond ihyes ihno =>
    rw [Expr.behaviour, Expr.behaviour, ihcond (hfits.part (by simp [parts])) (hfree.part (by simp [parts])),
      ihyes (hfits.part (by simp [parts])) (hfree.part (by simp [parts])),
      ihno (hfits.part (by simp [parts])) (hfree.part (by simp [parts]))]
  | ret value ih =>
    rw [Expr.behaviour, Expr.behaviour, ih (hfits.part (by simp [parts])) (hfree.part (by simp [parts]))]
  | retNothing => rw [Expr.behaviour, Expr.behaviour]
  | call callee args _ => exact absurd rfl (hfree.here callee args)

end Expr

end ScratchMachine
