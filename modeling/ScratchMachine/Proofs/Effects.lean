import ScratchMachine.Machine.Memory
import ScratchMachine.Proofs.Fallible

/-!
# Effects of operations

What can come of an operation, and what it does to the slots.

* `Operation.execute_answers`: what an answer tells about the operation.
* `Operation.fails_execute`: the reasons for which operations fail.
* `Operation.scratch_execute`: a slot keeps its value if it is not the one that the operation sets.
-/

namespace ScratchMachine

open Effect Fallible

/-! ### What an answer tells -/

namespace Operation

/-- What an answer of an operation tells about the operation. -/
def Answering (op : Operation) : Continuation → Prop
  | .advance => op.isTerminal = false ∧ op.stackEffect?.isSome
  | .jump offset => offset ∈ op.offsets
  | .call id => op = .callsub id
  | .leave => op = .retsub
  | .halt _ => op = .ret

theorem execute_answers (op : Operation) : Answers op.execute op.Answering := by
  cases op with
  | jump offset => exact answers_pure (by simp [Answering, offsets])
  | jumpIfFalse offset =>
    refine answers_bind fun n => answers_pure ?_
    split
    · simp [Answering, offsets]
    · exact ⟨rfl, rfl⟩
  | switch offsets =>
    refine answers_bind fun i => answers_pure ?_
    split
    · rename_i offset hi
      exact List.mem_of_getElem? hi
    · exact ⟨rfl, rfl⟩
  | ret => exact answers_bind fun v => answers_pure rfl
  | err => exact answers_throw
  | callsub id => exact answers_pure rfl
  | retsub => exact answers_pure rfl
  | _ =>
    -- every other operation ends by going on to the next one, after one, two or three effects
    repeat' first
      | exact answers_pure ⟨rfl, rfl⟩
      | refine answers_bind fun _ => ?_

end Operation

/-! ### Why an operation fails -/

/-- Whether the fault is one of those that operations have with memory. -/
def Fault.isEffect : Fault → Bool
  | stackUnderflow .. | typeMismatch .. | divisionByZero | slotOutOfRange .. | errExecuted => true
  | _ => false

namespace Effect

variable {p : Fault → Prop}

theorem fails_pop (h : p (.stackUnderflow 1 0)) : Fails pop p := by
  refine fails_bind fails_get fun m => ?_
  split
  · exact fails_throw h
  · exact fails_bind (fails_modify _) fun _ => fails_pure _

theorem fails_popInteger (h : ∀ fault, fault.isEffect = true → p fault) : Fails popInteger p := by
  refine fails_bind (fails_pop (h _ rfl)) fun v => ?_
  split
  · exact fails_pure _
  · exact fails_throw (h _ rfl)

theorem fails_combine {f : UInt64 → UInt64 → Except Fault UInt64} (h : ∀ fault, fault.isEffect = true → p fault)
    (hf : ∀ a b fault, f a b = .error fault → p fault) : Fails (combine f) p := by
  refine fails_bind fails_get fun m => ?_
  have hrest : Fails (do
      let b ← popInteger
      let a ← popInteger
      push (.uint (← f a b))) p :=
    fails_bind (fails_popInteger h) fun b => fails_bind (fails_popInteger h) fun a =>
      fails_bind (fails_lift (hf a b)) fun n => fails_modify _
  split
  · exact hrest
  · exact fails_bind (fails_throw (h _ rfl)) fun _ => hrest

theorem fails_test (f : UInt64 → UInt64 → Bool) (h : ∀ fault, fault.isEffect = true → p fault) : Fails (test f) p :=
  fails_combine h fun _ _ _ hf => nomatch hf

theorem fails_compare (expected : Bool) (h : ∀ fault, fault.isEffect = true → p fault) :
    Fails (compare expected) p := by
  refine fails_bind (fails_pop (h _ rfl)) fun b => fails_bind (fails_pop (h _ rfl)) fun a => ?_
  split
  · exact fails_bind (fails_throw (h _ rfl)) fun _ => fails_modify _
  · exact fails_modify _

theorem fails_requireSlot (index : UInt64) (h : ∀ fault, fault.isEffect = true → p fault) :
    Fails (requireSlot index) p := by
  refine fails_bind fails_get fun m => ?_
  dsimp only
  split
  · exact fails_pure _
  · exact fails_throw (h _ rfl)

theorem fails_readSlot (index : UInt64) (h : ∀ fault, fault.isEffect = true → p fault) : Fails (readSlot index) p :=
  fails_bind (fails_requireSlot index h) fun _ => fails_bind fails_get fun _ => fails_modify _

theorem fails_writeSlot (index : UInt64) (v : Value) (h : ∀ fault, fault.isEffect = true → p fault) :
    Fails (writeSlot index v) p :=
  fails_bind (fails_requireSlot index h) fun _ => fails_modify _

end Effect

/-- The reason why an operation fails is one of memory. -/
theorem Operation.fails_execute (op : Operation) : Fails op.execute (·.isEffect = true) := by
  have heffect : ∀ fault : Fault, fault.isEffect = true → fault.isEffect = true := fun _ => id
  have htotal : ∀ (f : UInt64 → UInt64 → UInt64) (a b : UInt64) (fault : Fault),
      Except.ok (f a b) = Except.error fault → fault.isEffect = true := fun _ _ _ _ h => nomatch h
  have hdivision : ∀ (f : UInt64 → UInt64 → UInt64) (a b : UInt64) (fault : Fault),
      (if b = 0 then Except.error .divisionByZero else .ok (f a b)) = Except.error fault → fault.isEffect = true := by
    intro f a b fault h
    split at h
    · cases h
      rfl
    · cases h
  cases op with
  | int n => exact fails_bind (fails_modify _) fun _ => fails_pure _
  | byte b => exact fails_bind (fails_modify _) fun _ => fails_pure _
  | pop => exact fails_bind (fails_bind (fails_pop rfl) fun _ => fails_pure _) fun _ => fails_pure _
  | add => exact fails_bind (fails_combine heffect (htotal _)) fun _ => fails_pure _
  | sub => exact fails_bind (fails_combine heffect (htotal _)) fun _ => fails_pure _
  | mul => exact fails_bind (fails_combine heffect (htotal _)) fun _ => fails_pure _
  | div => exact fails_bind (fails_combine heffect (hdivision _)) fun _ => fails_pure _
  | mod => exact fails_bind (fails_combine heffect (hdivision _)) fun _ => fails_pure _
  | eq => exact fails_bind (fails_compare _ heffect) fun _ => fails_pure _
  | ne => exact fails_bind (fails_compare _ heffect) fun _ => fails_pure _
  | lt => exact fails_bind (fails_test _ heffect) fun _ => fails_pure _
  | gt => exact fails_bind (fails_test _ heffect) fun _ => fails_pure _
  | le => exact fails_bind (fails_test _ heffect) fun _ => fails_pure _
  | ge => exact fails_bind (fails_test _ heffect) fun _ => fails_pure _
  | and => exact fails_bind (fails_test _ heffect) fun _ => fails_pure _
  | or => exact fails_bind (fails_test _ heffect) fun _ => fails_pure _
  | not => exact fails_bind (fails_popInteger heffect) fun _ => fails_bind (fails_modify _) fun _ => fails_pure _
  | load slot => exact fails_bind (fails_readSlot _ heffect) fun _ => fails_pure _
  | store slot => exact fails_bind (fails_pop rfl) fun _ => fails_bind (fails_writeSlot _ _ heffect) fun _ => fails_pure _
  | loads => exact fails_bind (fails_popInteger heffect) fun _ => fails_bind (fails_readSlot _ heffect) fun _ => fails_pure _
  | stores =>
    exact fails_bind (fails_pop rfl) fun _ => fails_bind (fails_popInteger heffect) fun _ =>
      fails_bind (fails_writeSlot _ _ heffect) fun _ => fails_pure _
  | jump offset => exact fails_pure _
  | jumpIfFalse offset => exact fails_bind (fails_popInteger heffect) fun _ => fails_pure _
  | switch offsets => exact fails_bind (fails_popInteger heffect) fun _ => fails_pure _
  | callsub id => exact fails_pure _
  | retsub => exact fails_pure _
  | ret => exact fails_bind (fails_pop rfl) fun _ => fails_pure _
  | err => exact fails_throw rfl

/-! ### What happens to the slots -/

namespace Effect

/-- If it succeeds, the effect leaves all slots as they are. -/
def KeepsScratch {α : Type} (x : Effect α) : Prop := ∀ m a m', x.run.run m = (.ok a, m') → m'.scratch = m.scratch

variable {α β : Type}

theorem keepsScratch_pure (a : α) : KeepsScratch (pure a : Effect α) := by
  intro m a m' h
  cases h
  rfl

theorem keepsScratch_throw (fault : Fault) : KeepsScratch (throw fault : Effect α) := by
  intro m a m' h
  cases h

theorem keepsScratch_push (v : Value) : KeepsScratch (push v) := by
  intro m a m' h
  cases h
  rfl

theorem KeepsScratch.bind {x : Effect α} {k : α → Effect β} (hx : KeepsScratch x) (hk : ∀ a, KeepsScratch (k a)) :
    KeepsScratch (x >>= k) := by
  intro m b m' h
  obtain ⟨a, mid, hrun, hrest⟩ := bind_eq_ok.1 h
  exact (hk a mid b m' hrest).trans (hx m a mid hrun)

theorem keepsScratch_get : KeepsScratch (get : Effect Memory) := by
  intro m a m' h
  cases h
  rfl

theorem pop_eq_ok {m m' : Memory} {v : Value} : pop.run.run m = (.ok v, m') ↔ m = ⟨v :: m'.stack, m'.scratch⟩ := by
  obtain ⟨stack, scratch⟩ := m
  obtain ⟨stack', scratch'⟩ := m'
  cases stack with
  | nil =>
    constructor
    · intro h
      cases h
    · intro h
      cases h
  | cons u stack =>
    constructor
    · intro h
      cases h
      rfl
    · intro h
      cases h
      rfl

theorem keepsScratch_pop : KeepsScratch pop := by
  intro m v m' h
  rw [pop_eq_ok.1 h]

theorem keepsScratch_popInteger : KeepsScratch popInteger := by
  refine keepsScratch_pop.bind fun v => ?_
  cases v with
  | uint n => exact keepsScratch_pure n
  | bytes b => exact keepsScratch_throw _

theorem keepsScratch_lift (x : Except Fault α) : KeepsScratch (liftM x : Effect α) := by
  cases x with
  | error fault => exact keepsScratch_throw fault
  | ok a => exact keepsScratch_pure a

theorem keepsScratch_combine (f : UInt64 → UInt64 → Except Fault UInt64) : KeepsScratch (combine f) := by
  refine keepsScratch_get.bind fun m => ?_
  have hrest : KeepsScratch (do
      let b ← popInteger
      let a ← popInteger
      push (.uint (← f a b))) :=
    keepsScratch_popInteger.bind fun b => keepsScratch_popInteger.bind fun a =>
      (keepsScratch_lift _).bind fun n => keepsScratch_push _
  split
  · exact hrest
  · exact (keepsScratch_throw _).bind fun _ => hrest

theorem keepsScratch_compare (expected : Bool) : KeepsScratch (compare expected) := by
  refine keepsScratch_pop.bind fun b => keepsScratch_pop.bind fun a => ?_
  split
  · exact (keepsScratch_throw _).bind fun _ => keepsScratch_push _
  · exact keepsScratch_push _

theorem requireSlot_eq_ok {index : UInt64} {m m' : Memory} {u : Unit} :
    (requireSlot index).run.run m = (.ok u, m') ↔ index.toNat < m.scratch.size ∧ m' = m := by
  rw [requireSlot, run_bind, run_get]
  dsimp only
  by_cases hlt : index.toNat < m.scratch.size
  · rw [if_pos hlt]
    constructor
    · intro h
      cases h
      exact ⟨hlt, rfl⟩
    · rintro ⟨-, rfl⟩
      rfl
  · rw [if_neg hlt]
    constructor
    · intro h
      cases h
    · exact fun h => absurd h.1 hlt

theorem run_readSlot {index : UInt64} {v : Value} {m : Memory} (h : m.scratch[index.toNat]? = some v) :
    (readSlot index).run.run m = (.ok (), { m with stack := v :: m.stack }) := by
  obtain ⟨hlt, -⟩ := Array.getElem?_eq_some_iff.1 h
  have hrequire : (requireSlot index).run.run m = (.ok (), m) := requireSlot_eq_ok.2 ⟨hlt, rfl⟩
  rw [readSlot, run_bind, hrequire]
  dsimp only
  rw [run_bind, run_get]
  dsimp only
  rw [Array.getD_eq_getD_getElem?, h]
  rfl

theorem keepsScratch_readSlot (index : UInt64) : KeepsScratch (readSlot index) := by
  refine KeepsScratch.bind ?_ fun _ => keepsScratch_get.bind fun m => keepsScratch_push _
  intro m u m' h
  rw [(requireSlot_eq_ok.1 h).2]

theorem writeSlot_eq_ok {index : UInt64} {v : Value} {m m' : Memory} {u : Unit}
    (h : (writeSlot index v).run.run m = (.ok u, m')) :
    index.toNat < m.scratch.size ∧ m' = { m with scratch := m.scratch.setIfInBounds index.toNat v } := by
  obtain ⟨_, mid, hrequire, hrest⟩ := bind_eq_ok.1 h
  obtain ⟨hlt, rfl⟩ := requireSlot_eq_ok.1 hrequire
  cases hrest
  exact ⟨hlt, rfl⟩

theorem run_writeSlot {index : UInt64} {m : Memory} (v : Value) (h : index.toNat < m.scratch.size) :
    (writeSlot index v).run.run m = (.ok (), { m with scratch := m.scratch.setIfInBounds index.toNat v }) := by
  have hrequire : (requireSlot index).run.run m = (.ok (), m) := requireSlot_eq_ok.2 ⟨h, rfl⟩
  rw [writeSlot, run_bind, hrequire]
  rfl

end Effect

namespace Operation

/-- The operation sets a slot, whose number it has or takes from the stack. -/
def IsStore : Operation → Prop
  | store _ | stores => True
  | _ => False

theorem keepsScratch_execute {op : Operation} (h : ¬ op.IsStore) : KeepsScratch op.execute := by
  cases op with
  | int n => exact (keepsScratch_push _).bind fun _ => keepsScratch_pure _
  | byte b => exact (keepsScratch_push _).bind fun _ => keepsScratch_pure _
  | pop => exact (keepsScratch_pop.bind fun _ => keepsScratch_pure _).bind fun _ => keepsScratch_pure _
  | eq => exact (keepsScratch_compare _).bind fun _ => keepsScratch_pure _
  | ne => exact (keepsScratch_compare _).bind fun _ => keepsScratch_pure _
  | not => exact keepsScratch_popInteger.bind fun _ => (keepsScratch_push _).bind fun _ => keepsScratch_pure _
  | load slot => exact (keepsScratch_readSlot slot).bind fun _ => keepsScratch_pure _
  | store slot => exact absurd trivial h
  | loads => exact keepsScratch_popInteger.bind fun slot => (keepsScratch_readSlot slot).bind fun _ => keepsScratch_pure _
  | stores => exact absurd trivial h
  | jump offset => exact keepsScratch_pure _
  | jumpIfFalse offset => exact keepsScratch_popInteger.bind fun _ => keepsScratch_pure _
  | switch offsets => exact keepsScratch_popInteger.bind fun _ => keepsScratch_pure _
  | callsub id => exact keepsScratch_pure _
  | retsub => exact keepsScratch_pure _
  | ret => exact keepsScratch_pop.bind fun _ => keepsScratch_pure _
  | err => exact keepsScratch_throw _
  | _ =>
    -- what is left are the operations on two integers
    exact (keepsScratch_combine _).bind fun _ => keepsScratch_pure _

theorem execute_store {slot : UInt64} {m m' : Memory} {c : Continuation}
    (h : (store slot).execute.run.run m = (.ok c, m')) :
    ∃ v rest, m.stack = v :: rest ∧ slot.toNat < m.scratch.size ∧
      m' = ⟨rest, m.scratch.setIfInBounds slot.toNat v⟩ ∧ c = .advance := by
  obtain ⟨v, mid, hpop, h⟩ := bind_eq_ok.1 h
  obtain ⟨_, mid', hwrite, h⟩ := bind_eq_ok.1 h
  obtain rfl := pop_eq_ok.1 hpop
  obtain ⟨hlt, rfl⟩ := writeSlot_eq_ok hwrite
  cases h
  exact ⟨v, mid.stack, rfl, hlt, rfl, rfl⟩

theorem run_store {slot : UInt64} {scratch : Array Value} (v : Value) (stack : List Value)
    (h : slot.toNat < scratch.size) :
    (store slot).execute.run.run ⟨v :: stack, scratch⟩ =
      (.ok .advance, ⟨stack, scratch.setIfInBounds slot.toNat v⟩) := by
  have hpop : Effect.pop.run.run ⟨v :: stack, scratch⟩ = (.ok v, ⟨stack, scratch⟩) := rfl
  have hlt : slot.toNat < (Memory.mk stack scratch).scratch.size := h
  rw [execute, run_bind, hpop]
  dsimp only
  rw [run_bind, run_writeSlot v hlt]
  rfl

theorem execute_stores {m m' : Memory} {c : Continuation} (h : stores.execute.run.run m = (.ok c, m')) :
    ∃ v slot rest, m.stack = v :: .uint slot :: rest ∧
      m' = ⟨rest, m.scratch.setIfInBounds slot.toNat v⟩ ∧ c = .advance := by
  obtain ⟨v, mid, hpop, hrest⟩ := bind_eq_ok.1 h
  obtain ⟨slot, mid', hslot, hrest⟩ := bind_eq_ok.1 hrest
  obtain ⟨_, mid'', hwrite, hdone⟩ := bind_eq_ok.1 hrest
  cases hdone
  obtain ⟨-, rfl⟩ := writeSlot_eq_ok hwrite
  obtain rfl := pop_eq_ok.1 hpop
  obtain ⟨w, mid₁, hpop', hinteger⟩ := bind_eq_ok.1 hslot
  obtain rfl := pop_eq_ok.1 hpop'
  cases w with
  | bytes b => cases hinteger
  | uint n =>
    cases hinteger
    exact ⟨v, slot, mid'.stack, rfl, rfl, rfl⟩

/-- The slot that the operation sets, if it sets one. -/
def target? (op : Operation) (m : Memory) : Option UInt64 :=
  match op with
  | store slot => some slot
  | stores =>
    match m.stack with
    | _ :: .uint slot :: _ => some slot
    | _ => none
  | _ => none

theorem target?_store (slot : UInt64) (m : Memory) : (store slot).target? m = some slot := rfl

theorem target?_stores {slot : UInt64} {v : Value} {m : Memory} {rest : List Value}
    (h : m.stack = v :: .uint slot :: rest) : stores.target? m = some slot := by
  obtain ⟨stack, scratch⟩ := m
  cases h
  rfl

/-- A slot keeps its value if it is not the one that the operation sets. -/
theorem scratch_execute {op : Operation} {slot : UInt64} {m m' : Memory} {c : Continuation}
    (h : op.execute.run.run m = (.ok c, m')) (htarget : op.target? m ≠ some slot) :
    m'.scratch[slot.toNat]? = m.scratch[slot.toNat]? := by
  have hother : ∀ (target : UInt64) (v : Value), target ≠ slot →
      (m.scratch.setIfInBounds target.toNat v)[slot.toNat]? = m.scratch[slot.toNat]? := fun target v hne =>
    Array.getElem?_setIfInBounds_ne fun heq => hne (UInt64.toNat_inj.1 heq)
  by_cases hstore : op.IsStore
  · cases op with
    | store target =>
      obtain ⟨v, rest, -, -, rfl, -⟩ := execute_store h
      exact hother target v fun heq => htarget (by rw [target?_store, heq])
    | stores =>
      obtain ⟨v, target, rest, hstack, rfl, -⟩ := execute_stores h
      exact hother target v fun heq => htarget (by rw [target?_stores hstack, heq])
    | _ => exact absurd hstore id
  · rw [keepsScratch_execute hstore m c m' h]

end Operation

end ScratchMachine
