import ScratchMachine.Proofs.Fallible

/-!
# Computations that take the same course

Two computations are compared by what they answer and by the states they leave: they give related values or fail with
related errors, and if they start from related states, they leave related ones.

* `SameAnswer`: two answers that say the same.
* `Fallible.Parallel`: two computations that come to the same end from all related states.
* `Fallible.Parallel.bind`: so do computations in two parts of which the parts do.
-/

namespace ScratchMachine

/-! ### Answers -/

/-- Two answers that say the same: both are values, and related, or both are errors, and related. -/
inductive SameAnswer {ε α α' : Type} (E : ε → ε → Prop) (A : α → α' → Prop) : Except ε α → Except ε α' → Prop
  | ok {a : α} {a' : α'} : A a a' → SameAnswer E A (.ok a) (.ok a')
  | error {e e' : ε} : E e e' → SameAnswer E A (.error e) (.error e')

namespace SameAnswer

variable {ε α α' β β' : Type} {E : ε → ε → Prop} {A : α → α' → Prop} {B : β → β' → Prop}

theorem isOk_eq {x : Except ε α} {x' : Except ε α'} (h : SameAnswer E A x x') : x'.isOk = x.isOk := by
  cases h <;> rfl

theorem bind {x : Except ε α} {x' : Except ε α'} {k : α → Except ε β} {k' : α' → Except ε β'} (hx : SameAnswer E A x x')
    (hk : ∀ a a', A a a' → SameAnswer E B (k a) (k' a')) : SameAnswer E B (x >>= k) (x' >>= k') := by
  cases hx with
  | ok ha => exact hk _ _ ha
  | error he => exact .error he

theorem mapM {R : β → β' → Prop} {k : β → Except ε α} {k' : β' → Except ε α'} {l : List β} {l' : List β'}
    (hl : List.Forall₂ R l l') (hk : ∀ b b', R b b' → SameAnswer E A (k b) (k' b')) :
    SameAnswer E (List.Forall₂ A) (l.mapM k) (l'.mapM k') := by
  induction hl with
  | nil => exact .ok .nil
  | cons hb _ ih =>
    rw [List.mapM_cons, List.mapM_cons]
    exact (hk _ _ hb).bind fun a a' ha => ih.bind fun as as' has => .ok (.cons ha has)

end SameAnswer

/-! ### Computations that take the same course -/

namespace Fallible

variable {ε σ τ α α' β β' : Type}

/-- Two computations have given answers that say the same, and left related states. -/
structure SameEnd (S : σ → τ → Prop) (E : ε → ε → Prop) (A : α → α' → Prop) (r : Except ε α × σ) (r' : Except ε α' × τ) :
    Prop where
  answer : SameAnswer E A r.1 r'.1
  state : S r.2 r'.2

/-- From related states two computations come to the same end. -/
def Parallel (S : σ → τ → Prop) (E : ε → ε → Prop) (A : α → α' → Prop) (x : Fallible ε σ α) (x' : Fallible ε τ α') :
    Prop :=
  ∀ s s', S s s' → SameEnd S E A (x.run.run s) (x'.run.run s')

section Parallel

variable {S : σ → τ → Prop} {E : ε → ε → Prop} {A : α → α' → Prop} {B : β → β' → Prop}

theorem parallel_pure {a : α} {a' : α'} (h : A a a') : Parallel S E A (pure a) (pure a') := fun _ _ hs => ⟨.ok h, hs⟩

theorem parallel_throw {e e' : ε} (h : E e e') : Parallel S E A (throw e) (throw e') := fun _ _ hs => ⟨.error h, hs⟩

theorem parallel_get : Parallel S E S get get := fun _ _ hs => ⟨.ok hs, hs⟩

/-- What comes second may leave its states related in a weaker way, if it starts from related ones. -/
theorem SameEnd.bind {S' : σ → τ → Prop} {x : Fallible ε σ α} {x' : Fallible ε τ α'} {k : α → Fallible ε σ β}
    {k' : α' → Fallible ε τ β'} {s : σ} {s' : τ} (hx : SameEnd S E A (x.run.run s) (x'.run.run s'))
    (hweaker : ∀ t t', S t t' → S' t t')
    (hk : ∀ a a' t t', A a a' → S t t' → SameEnd S' E B ((k a).run.run t) ((k' a').run.run t')) :
    SameEnd S' E B ((x >>= k).run.run s) ((x' >>= k').run.run s') := by
  rw [run_bind, run_bind]
  revert hx
  rcases x.run.run s with ⟨answer, t⟩
  rcases x'.run.run s' with ⟨answer', t'⟩
  rintro ⟨hanswer, hstate⟩
  cases hanswer with
  | ok ha => exact hk _ _ t t' ha hstate
  | error he => exact ⟨.error he, hweaker t t' hstate⟩

theorem Parallel.bind {x : Fallible ε σ α} {x' : Fallible ε τ α'} {k : α → Fallible ε σ β} {k' : α' → Fallible ε τ β'}
    (hx : Parallel S E A x x') (hk : ∀ a a', A a a' → Parallel S E B (k a) (k' a')) :
    Parallel S E B (x >>= k) (x' >>= k') :=
  fun s s' hs => (hx s s' hs).bind (fun _ _ => id) fun a a' t t' ha ht => hk a a' ha t t' ht

end Parallel

end Fallible

end ScratchMachine
