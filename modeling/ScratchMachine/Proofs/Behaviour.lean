import Mathlib.Order.Monotone.Defs
import Mathlib.Order.PropInstances
import ScratchMachine.Proofs.Effects

/-!
# Behaviours

What a piece of a program can do to memory, and how control leaves it.  Trees, block graphs and linear code are all
given a behaviour, with that of the calls as a parameter, so that they can be compared.  Behaviours are put together
by `Behaviour.andThen`, which is associative and has `Behaviour.skip` as its unit, and by `Behaviour.perform`, which
goes on from the answer of an effect on memory.

* `Behaviour.perform_andThen`: what follows an effect can be moved into each of its continuations.
* `Operation.behaviour_mono`: more behaviour of the calls means more behaviour of an operation.
-/

namespace ScratchMachine

/-- How control leaves a piece of a program. -/
inductive Flow where
  /-- Past its end. -/
  | done
  /-- Out of the subroutine that the piece is a part of. -/
  | leave
  /-- Out of the program, which ends with this value. -/
  | halt (exit : Value)
  /-- By an error.  Its call stack names the code objects that were entered in the piece and not left. -/
  | fault (error : RuntimeError)
  deriving DecidableEq, Repr

/-- From which memory control can leave, how, and with which memory. -/
abbrev Behaviour := Memory → Flow → Memory → Prop

/-- The behaviour of the call of each subroutine, as the caller sees it. -/
abbrev Calls := SubroutineId → Behaviour

namespace Behaviour

/-- Control never leaves. -/
def never : Behaviour := fun _ _ _ => False

/-- Control leaves at once. -/
def exit (flow : Flow) : Behaviour := fun m f m' => f = flow ∧ m' = m

/-- Nothing is done. -/
def skip : Behaviour := exit .done

/-- One piece, then another if control gets past the first. -/
def andThen (a b : Behaviour) : Behaviour :=
  fun m f m' => (∃ mid, a m .done mid ∧ b mid f m') ∨ (f ≠ .done ∧ a m f m')

/-- An effect on memory, then what its answer asks for. -/
def perform {α : Type} (effect : Effect α) (next : α → Behaviour) : Behaviour := fun m f m' =>
  match effect.run.run m with
  | (.ok a, mid) => next a mid f m'
  | (.error fault, mid) => exit (.fault ⟨fault, []⟩) mid f m'

/-- Pops an integer, and goes on in one way if it is not zero and in another if it is. -/
def choose (yes no : Behaviour) : Behaviour := perform Effect.popInteger fun n => if n ≠ 0 then yes else no

/-- Control never gets past the end. -/
def Stops (a : Behaviour) : Prop := ∀ m m', ¬ a m .done m'

/-! ### The algebra of sequencing -/

theorem andThen_assoc (a b c : Behaviour) : (a.andThen b).andThen c = a.andThen (b.andThen c) := by
  funext m f m'
  simp only [andThen, eq_iff_iff]
  constructor
  · rintro (⟨mid, ⟨mid', ha, hb⟩ | ⟨h, -⟩, hc⟩ | ⟨hf, ⟨mid, ha, hb⟩ | ⟨-, ha⟩⟩)
    · exact .inl ⟨mid', ha, .inl ⟨mid, hb, hc⟩⟩
    · exact absurd rfl h
    · exact .inl ⟨mid, ha, .inr ⟨hf, hb⟩⟩
    · exact .inr ⟨hf, ha⟩
  · rintro (⟨mid, ha, ⟨mid', hb, hc⟩ | ⟨hf, hb⟩⟩ | ⟨hf, ha⟩)
    · exact .inl ⟨mid', .inl ⟨mid, ha, hb⟩, hc⟩
    · exact .inr ⟨hf, .inl ⟨mid, ha, hb⟩⟩
    · exact .inr ⟨hf, .inr ⟨hf, ha⟩⟩

@[simp] theorem skip_andThen (a : Behaviour) : skip.andThen a = a := by
  funext m f m'
  simp only [andThen, skip, exit, eq_iff_iff]
  constructor
  · rintro (⟨mid, ⟨-, rfl⟩, ha⟩ | ⟨hf, rfl, -⟩)
    · exact ha
    · exact absurd rfl hf
  · exact fun ha => .inl ⟨m, ⟨trivial, rfl⟩, ha⟩

@[simp] theorem andThen_skip (a : Behaviour) : a.andThen skip = a := by
  funext m f m'
  simp only [andThen, skip, exit, eq_iff_iff]
  constructor
  · rintro (⟨mid, ha, rfl, rfl⟩ | ⟨-, ha⟩)
    · exact ha
    · exact ha
  · intro ha
    by_cases hf : f = .done
    · subst hf
      exact .inl ⟨m', ha, rfl, rfl⟩
    · exact .inr ⟨hf, ha⟩

theorem Stops.andThen {a : Behaviour} (h : a.Stops) (b : Behaviour) : a.andThen b = a := by
  funext m f m'
  simp only [Behaviour.andThen, eq_iff_iff]
  constructor
  · rintro (⟨mid, ha, -⟩ | ⟨-, ha⟩)
    · exact absurd ha (h m mid)
    · exact ha
  · intro ha
    refine .inr ⟨?_, ha⟩
    rintro rfl
    exact h m m' ha

theorem andThen_of_done {a : Behaviour} {m mid : Memory} (h : a m = exit .done mid) (b : Behaviour) :
    a.andThen b m = b mid := by
  funext f m'
  simp only [andThen, h, exit, eq_iff_iff]
  constructor
  · rintro (⟨_, ⟨-, rfl⟩, hb⟩ | ⟨hf, hdone, -⟩)
    · exact hb
    · exact absurd hdone hf
  · exact fun hb => .inl ⟨mid, ⟨trivial, rfl⟩, hb⟩

theorem stops_exit {flow : Flow} (h : flow ≠ .done) : (exit flow).Stops := by
  rintro m m' ⟨hf, -⟩
  exact h hf.symm

theorem stops_andThen_right {a b : Behaviour} (h : b.Stops) : (a.andThen b).Stops := by
  rintro m m' (⟨mid, -, hb⟩ | ⟨hf, -⟩)
  · exact h mid m' hb
  · exact hf rfl

theorem perform_ok {α : Type} {effect : Effect α} {m mid : Memory} {a : α} (h : effect.run.run m = (.ok a, mid))
    (next : α → Behaviour) : perform effect next m = next a mid := by
  funext f m'
  rw [perform, h]

theorem perform_error {α : Type} {effect : Effect α} {m mid : Memory} {fault : Fault}
    (h : effect.run.run m = (.error fault, mid)) (next : α → Behaviour) :
    perform effect next m = exit (.fault ⟨fault, []⟩) mid := by
  funext f m'
  rw [perform, h]

theorem perform_andThen {α : Type} (effect : Effect α) (next : α → Behaviour) (b : Behaviour) :
    (perform effect next).andThen b = perform effect fun a => (next a).andThen b := by
  funext m f m'
  simp only [andThen, perform, eq_iff_iff]
  rcases effect.run.run m with ⟨fault | a, mid⟩
  · simp only [exit, reduceCtorEq, false_and, exists_false, false_or]
    constructor
    · exact fun h => h.2
    · rintro ⟨rfl, rfl⟩
      exact ⟨by simp, rfl, rfl⟩
  · rfl

@[simp] theorem perform_pure {α : Type} (a : α) (next : α → Behaviour) : perform (pure a) next = next a := rfl

theorem perform_congr {α : Type} {effect : Effect α} {next next' : α → Behaviour}
    (h : ∀ m a m', effect.run.run m = (.ok a, m') → next a = next' a) :
    perform effect next = perform effect next' := by
  funext m f m'
  unfold perform
  rcases hrun : effect.run.run m with ⟨fault | a, mid⟩
  · rfl
  · exact congrFun (congrFun (congrFun (h m a mid hrun) mid) f) m'

theorem perform_bind {α β : Type} (effect : Effect α) (k : α → Effect β) (next : β → Behaviour) :
    perform (effect >>= k) next = perform effect fun a => perform (k a) next := by
  funext m f m'
  rw [perform, Fallible.run_bind, perform]
  rcases effect.run.run m with ⟨fault | a, mid⟩ <;> rfl

theorem choose_andThen (yes no b : Behaviour) :
    (choose yes no).andThen b = choose (yes.andThen b) (no.andThen b) := by
  unfold choose
  rw [perform_andThen]
  congr 1
  funext n
  split <;> rfl

theorem stops_choose {yes no : Behaviour} (hy : yes.Stops) (hn : no.Stops) : (choose yes no).Stops := by
  intro m m' h
  unfold choose perform at h
  split at h
  · split at h
    · exact hy _ _ h
    · exact hn _ _ h
  · exact absurd h.1 (by simp)

/-! ### Monotonicity -/

theorem perform_mono {α : Type} (effect : Effect α) {next next' : α → Behaviour} (h : next ≤ next') :
    perform effect next ≤ perform effect next' := by
  intro m f m' hm
  unfold perform at hm ⊢
  split at hm
  · exact h _ _ _ _ hm
  · exact hm

end Behaviour

open Behaviour

/-! ### Calls -/

namespace Flow

/-- How control leaves a call, from how it leaves the code object that is called. -/
def afterCall (name : String) : Flow → Flow
  | done => fault ⟨.missingRetsub name, []⟩
  | leave => done
  | halt exit => halt exit
  | fault error => fault (error.inContext name)

theorem afterCall_eq_done {name : String} {f : Flow} : f.afterCall name = done ↔ f = leave := by
  cases f <;> simp [afterCall]

end Flow

namespace Behaviour

/-- The behaviour of a code object as its caller sees it. -/
def asCall (name : String) (b : Behaviour) : Behaviour := fun m f m' => ∃ g, b m g m' ∧ f = g.afterCall name

theorem asCall_mono (name : String) {a b : Behaviour} (h : a ≤ b) : asCall name a ≤ asCall name b := by
  rintro m f m' ⟨g, ha, rfl⟩
  exact ⟨g, h _ _ _ ha, rfl⟩

end Behaviour

/-! ### Operations -/

namespace Operation

/-- Whether the operation moves control within its code object other than to the operation that follows. -/
def isJump : Operation → Bool
  | jump _ | jumpIfFalse _ | switch _ => true
  | _ => false

/-- What control does after an operation other than a jump. -/
def follow (calls : Calls) : Continuation → Behaviour
  | .advance => skip
  | .jump _ => never
  | .call id => calls id
  | .leave => exit .leave
  | .halt v => exit (.halt v)

/-- The behaviour of an operation other than a jump. -/
def behaviour (calls : Calls) (op : Operation) : Behaviour := perform op.execute (follow calls)

/-- The behaviour of operations one after the other. -/
def behaviourAll (calls : Calls) : List Operation → Behaviour
  | [] => skip
  | op :: rest => (op.behaviour calls).andThen (behaviourAll calls rest)

theorem behaviour_mono (op : Operation) : Monotone fun calls => op.behaviour calls := by
  intro calls calls' h
  refine perform_mono _ fun c => ?_
  cases c with
  | call id => exact h id
  | _ => exact le_refl _

theorem behaviourAll_append (calls : Calls) (l l' : List Operation) :
    behaviourAll calls (l ++ l') = (behaviourAll calls l).andThen (behaviourAll calls l') := by
  induction l with
  | nil => exact (skip_andThen _).symm
  | cons op rest ih =>
    rw [List.cons_append, behaviourAll, behaviourAll, ih, andThen_assoc]

/-- Control never gets past a terminal operation. -/
theorem stops_behaviour {op : Operation} (h : op.isTerminal = true) (calls : Calls) :
    (op.behaviour calls).Stops := by
  intro m m' hb
  unfold behaviour perform at hb
  split at hb
  · rename_i c mid hc
    have hans := op.execute_answers m c mid hc
    cases c with
    | advance => simp [h, Answering] at hans
    | jump offset => exact hb
    | call id =>
      rw [show op = .callsub id from hans] at h
      cases h
    | leave => exact absurd hb.1 (by simp)
    | halt v => exact absurd hb.1 (by simp)
  · exact absurd hb.1 (by simp)

end Operation

end ScratchMachine
