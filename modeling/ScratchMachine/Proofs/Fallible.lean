import Mathlib.Data.List.Forall2

/-!
# Computations that change a state and may fail

Effects on memory, the linking of blocks and compiling are all of this kind: a computation that fails keeps what it
has done to the state so far.

* `Fallible.run_bind`: a computation after another starts from the state that the first leaves.
* `Fallible.bind_eq_ok`, `Fallible.bind_eq_error`: a computation in two parts succeeds if both parts do, and fails if one
  of them does.
-/

namespace ScratchMachine

/-- A computation that changes a state and may fail. -/
abbrev Fallible (ε σ α : Type) := ExceptT ε (StateM σ) α

namespace Fallible

variable {ε σ α β : Type}

/-! ### Laws -/

@[simp] theorem run_get (s : σ) : (get : Fallible ε σ σ).run.run s = (.ok s, s) := rfl

theorem run_bind (x : Fallible ε σ α) (k : α → Fallible ε σ β) (s : σ) :
    (x >>= k).run.run s =
      match x.run.run s with
      | (.ok a, mid) => (k a).run.run mid
      | (.error e, mid) => (.error e, mid) := by
  show (ExceptT.bindCont k (x s).1) (x s).2 = match x s with | (.ok a, mid) => _ | (.error e, mid) => _
  rcases x s with ⟨e | a, mid⟩ <;> rfl

theorem bind_eq_ok {x : Fallible ε σ α} {k : α → Fallible ε σ β} {s s' : σ} {b : β} :
    (x >>= k).run.run s = (.ok b, s') ↔
      ∃ a mid, x.run.run s = (.ok a, mid) ∧ (k a).run.run mid = (.ok b, s') := by
  rw [run_bind]
  rcases x.run.run s with ⟨e | a, mid⟩
  · constructor
    · intro h
      cases h
    · rintro ⟨a, mid', h, -⟩
      cases h
  · constructor
    · exact fun h => ⟨a, mid, rfl, h⟩
    · rintro ⟨a', mid', h, hk⟩
      cases h
      exact hk

theorem run_bind_of_ok {x : Fallible ε σ α} {k : α → Fallible ε σ β} {s s' : σ} {a : α}
    (h : x.run.run s = (.ok a, s')) : (x >>= k).run.run s = (k a).run.run s' := by
  rw [run_bind, h]

theorem run_lift_bind_of_ok {x : Except ε α} {k : α → Fallible ε σ β} {s : σ} {a : α} (h : x = .ok a) :
    ((liftM x : Fallible ε σ α) >>= k).run.run s = (k a).run.run s := by
  subst h
  rfl

theorem bind_eq_error {x : Fallible ε σ α} {k : α → Fallible ε σ β} {s s' : σ} {e : ε} :
    (x >>= k).run.run s = (.error e, s') ↔
      x.run.run s = (.error e, s') ∨ ∃ a mid, x.run.run s = (.ok a, mid) ∧ (k a).run.run mid = (.error e, s') := by
  rw [run_bind]
  rcases x.run.run s with ⟨e' | a, mid⟩
  · constructor
    · intro h
      cases h
      exact .inl rfl
    · rintro (h | ⟨a, mid', h, -⟩)
      · cases h
        rfl
      · cases h
  · constructor
    · exact fun h => .inr ⟨a, mid, rfl, h⟩
    · rintro (h | ⟨a', mid', h, hk⟩)
      · cases h
      · cases h
        exact hk

/-! ### Answers -/

/-- The computation gives no answers but those of which `p` holds. -/
def Answers (x : Fallible ε σ α) (p : α → Prop) : Prop := ∀ s a s', x.run.run s = (.ok a, s') → p a

theorem answers_bind {x : Fallible ε σ α} {k : α → Fallible ε σ β} {p : β → Prop} (h : ∀ a, (k a).Answers p) :
    (x >>= k).Answers p := by
  intro s b s' hb
  obtain ⟨a, mid, -, hk⟩ := bind_eq_ok.1 hb
  exact h a mid b s' hk

theorem answers_pure {a : α} {p : α → Prop} (h : p a) : (pure a : Fallible ε σ α).Answers p := by
  intro s b s' hb
  cases hb
  exact h

theorem answers_throw {e : ε} {p : α → Prop} : (throw e : Fallible ε σ α).Answers p := by
  intro s b s' hb
  cases hb

/-! ### Errors -/

/-- The computation fails with no errors but those of which `p` holds. -/
def Fails (x : Fallible ε σ α) (p : ε → Prop) : Prop := ∀ s e s', x.run.run s = (.error e, s') → p e

theorem fails_pure {p : ε → Prop} (a : α) : (pure a : Fallible ε σ α).Fails p := by
  intro s e s' h
  cases h

theorem fails_throw {p : ε → Prop} {e : ε} (h : p e) : (throw e : Fallible ε σ α).Fails p := by
  intro s e' s' h'
  cases h'
  exact h

theorem fails_get {p : ε → Prop} : (get : Fallible ε σ σ).Fails p := by
  intro s e s' h
  cases h

theorem fails_modify {p : ε → Prop} (f : σ → σ) : (modify f : Fallible ε σ Unit).Fails p := by
  intro s e s' h
  cases h

theorem fails_lift {p : ε → Prop} {x : Except ε α} (h : ∀ e, x = .error e → p e) :
    (liftM x : Fallible ε σ α).Fails p := by
  cases x with
  | error e => exact fails_throw (h e rfl)
  | ok a => exact fails_pure a

theorem fails_bind {p : ε → Prop} {x : Fallible ε σ α} {k : α → Fallible ε σ β} (hx : x.Fails p)
    (hk : ∀ a, (k a).Fails p) : (x >>= k).Fails p := by
  intro s e s' h
  rcases bind_eq_error.1 h with h | ⟨a, mid, -, h⟩
  · exact hx s e s' h
  · exact hk a mid e s' h

/-! ### Outcomes -/

/-- From a state, the computation succeeds with one property of its answer and of the state it leaves, or fails with
another of that state. -/
def Ensures (x : Fallible ε σ α) (s : σ) (ok : α → σ → Prop) (failed : σ → Prop) : Prop :=
  match x.run.run s with
  | (.ok a, s') => ok a s'
  | (.error _, s') => failed s'

section Ensures

variable {s : σ} {ok : α → σ → Prop} {failed : σ → Prop}

theorem ensures_pure {a : α} (h : ok a s) : (pure a : Fallible ε σ α).Ensures s ok failed := h

theorem ensures_throw {e : ε} (h : failed s) : (throw e : Fallible ε σ α).Ensures s ok failed := h

theorem ensures_get {ok : σ → σ → Prop} (h : ok s s) : (get : Fallible ε σ σ).Ensures s ok failed := h

theorem ensures_modify {f : σ → σ} {ok : Unit → σ → Prop} (h : ok () (f s)) :
    (modify f : Fallible ε σ Unit).Ensures s ok failed := h

theorem ensures_lift {x : Except ε α} (hok : ∀ a, x = .ok a → ok a s) (hfailed : failed s) :
    (liftM x : Fallible ε σ α).Ensures s ok failed := by
  cases x with
  | error e => exact hfailed
  | ok a => exact hok a rfl

theorem ensures_bind {x : Fallible ε σ α} {k : α → Fallible ε σ β} {ok : β → σ → Prop}
    (h : x.Ensures s (fun a s' => (k a).Ensures s' ok failed) failed) : (x >>= k).Ensures s ok failed := by
  unfold Ensures at h ⊢
  rw [run_bind]
  rcases hx : x.run.run s with ⟨e | a, mid⟩
  · rw [hx] at h
    exact h
  · rw [hx] at h
    exact h

theorem Ensures.imp {ok' : α → σ → Prop} {failed' : σ → Prop} {x : Fallible ε σ α} (h : x.Ensures s ok failed)
    (hok : ∀ a s', ok a s' → ok' a s') (hfailed : ∀ s', failed s' → failed' s') : x.Ensures s ok' failed' := by
  unfold Ensures at h ⊢
  rcases hx : x.run.run s with ⟨e | a, s'⟩
  · rw [hx] at h
    exact hfailed s' h
  · rw [hx] at h
    exact hok a s' h

theorem Ensures.and {ok' : α → σ → Prop} {failed' : σ → Prop} {x : Fallible ε σ α} (h : x.Ensures s ok failed)
    (h' : x.Ensures s ok' failed') :
    x.Ensures s (fun a s' => ok a s' ∧ ok' a s') fun s' => failed s' ∧ failed' s' := by
  unfold Ensures at h h' ⊢
  rcases hx : x.run.run s with ⟨e | a, s'⟩
  · rw [hx] at h h'
    exact ⟨h, h'⟩
  · rw [hx] at h h'
    exact ⟨h, h'⟩

theorem ensures_of {x : Fallible ε σ α} {p : Prop} (h : p) : x.Ensures s (fun _ _ => p) fun _ => True := by
  unfold Ensures
  rcases x.run.run s with ⟨e | a, s'⟩
  · trivial
  · exact h

theorem ensures_mapM_length (f : α → Fallible ε σ β) (l : List α) (s : σ) :
    (l.mapM f).Ensures s (fun l' _ => l'.length = l.length) fun _ => True := by
  induction l generalizing s with
  | nil => exact rfl
  | cons a l ih =>
    rw [List.mapM_cons]
    refine ensures_bind ((ensures_of trivial).imp (fun b s₁ _ => ?_) fun _ _ => trivial)
    refine ensures_bind ((ih s₁).imp (fun l' s₂ hl' => ensures_pure ?_) fun _ _ => trivial)
    rw [List.length_cons, List.length_cons, hl']

theorem Ensures.of_ok {x : Fallible ε σ α} (h : x.Ensures s ok failed) {a : α} {s' : σ}
    (hx : x.run.run s = (.ok a, s')) : ok a s' := by
  rwa [Ensures, hx] at h

theorem ensures_run (x : Fallible ε σ α) (s : σ) :
    x.Ensures s (fun a s' => x.run.run s = (.ok a, s')) fun s' => ∃ e, x.run.run s = (.error e, s') := by
  unfold Ensures
  rcases x.run.run s with ⟨e | a, s'⟩
  · exact ⟨e, rfl⟩
  · rfl

end Ensures

/-! ### Errors from a state -/

/-- From a state, the computation fails with no errors but those of which `p` holds. -/
def FailsFrom (x : Fallible ε σ α) (s : σ) (p : ε → Prop) : Prop := ∀ e s', x.run.run s = (.error e, s') → p e

section FailsFrom

variable {s : σ} {p : ε → Prop}

theorem FailsFrom.bind {x : Fallible ε σ α} {k : α → Fallible ε σ β} (hx : x.FailsFrom s p)
    (hk : ∀ a s', x.run.run s = (.ok a, s') → (k a).FailsFrom s' p) : (x >>= k).FailsFrom s p := by
  intro e s' h
  rcases bind_eq_error.1 h with h | ⟨a, mid, hrun, h⟩
  · exact hx e s' h
  · exact hk a mid hrun e s' h

/-- What comes second starts from a state that the first ensures. -/
theorem FailsFrom.bind_ensures {x : Fallible ε σ α} {k : α → Fallible ε σ β} {ok : α → σ → Prop} {failed : σ → Prop}
    (hx : x.FailsFrom s p) (h : x.Ensures s ok failed) (hk : ∀ a s', ok a s' → (k a).FailsFrom s' p) :
    (x >>= k).FailsFrom s p := hx.bind fun a s' hrun => hk a s' (h.of_ok hrun)

theorem failsFrom_get_bind {k : σ → Fallible ε σ β} (hk : (k s).FailsFrom s p) :
    ((get : Fallible ε σ σ) >>= k).FailsFrom s p :=
  FailsFrom.bind (fails_get s) fun a s' h => by
    cases h
    exact hk

theorem failsFrom_lift_bind {x : Except ε α} {k : α → Fallible ε σ β} (hx : ∀ e, x = .error e → p e)
    (hk : ∀ a, x = .ok a → (k a).FailsFrom s p) : ((liftM x : Fallible ε σ α) >>= k).FailsFrom s p := by
  cases x with
  | error e =>
    intro e' s' h
    cases h
    exact hx e rfl
  | ok a => exact hk a rfl

end FailsFrom

end Fallible

/-! ### Without a state -/

variable {ε α β : Type}

theorem except_bind_eq_ok {x : Except ε α} {k : α → Except ε β} {b : β} :
    x >>= k = .ok b ↔ ∃ a, x = .ok a ∧ k a = .ok b := by
  cases x with
  | error e =>
    constructor
    · intro h
      cases h
    · rintro ⟨a, h, -⟩
      cases h
  | ok a =>
    refine ⟨fun h => ⟨a, rfl, h⟩, ?_⟩
    rintro ⟨a', h, hk⟩
    cases h
    exact hk

theorem except_bind_eq_error {x : Except ε α} {k : α → Except ε β} {e : ε} :
    x >>= k = .error e ↔ x = .error e ∨ ∃ a, x = .ok a ∧ k a = .error e := by
  cases x with
  | error e' =>
    constructor
    · intro h
      cases h
      exact .inl rfl
    · rintro (h | ⟨a, h, -⟩)
      · cases h
        rfl
      · cases h
  | ok a =>
    refine ⟨fun h => .inr ⟨a, rfl, h⟩, ?_⟩
    rintro (h | ⟨a', h, hk⟩)
    · cases h
    · cases h
      exact hk

/-- A list of computations succeeds if all of them do. -/
theorem forall₂_of_mapM {f : α → Except ε β} {l : List α} {l' : List β} (h : l.mapM f = .ok l') :
    List.Forall₂ (fun a b => f a = .ok b) l l' := by
  induction l generalizing l' with
  | nil =>
    cases h
    exact .nil
  | cons a l ih =>
    rw [List.mapM_cons] at h
    obtain ⟨b, ha, h⟩ := except_bind_eq_ok.1 h
    obtain ⟨rest, hl, h⟩ := except_bind_eq_ok.1 h
    cases h
    exact .cons ha (ih hl)

theorem exists_of_forall₂ {R : α → β → Prop} {l : List α} {l' : List β} (h : List.Forall₂ R l l') {b : β} (hb : b ∈ l') :
    ∃ a ∈ l, R a b := by
  induction h with
  | nil => cases hb
  | @cons a b' l l' ha _ ih =>
    rcases List.mem_cons.1 hb with rfl | hb
    · exact ⟨a, List.mem_cons_self .., ha⟩
    · obtain ⟨a', ha', hR⟩ := ih hb
      exact ⟨a', List.mem_cons_of_mem _ ha', hR⟩

theorem mem_of_mapM {f : α → Except ε β} {l : List α} {l' : List β} (h : l.mapM f = .ok l') {b : β} (hb : b ∈ l') :
    ∃ a ∈ l, f a = .ok b := exists_of_forall₂ (forall₂_of_mapM h) hb

/-- A list of computations fails only if one of them does. -/
theorem exists_of_mapM {f : α → Except ε β} {l : List α} {e : ε} (h : l.mapM f = .error e) :
    ∃ a ∈ l, f a = .error e := by
  induction l with
  | nil => cases h
  | cons a l ih =>
    rw [List.mapM_cons] at h
    rcases except_bind_eq_error.1 h with ha | ⟨b, -, h⟩
    · exact ⟨a, List.mem_cons_self .., ha⟩
    rcases except_bind_eq_error.1 h with hl | ⟨rest, -, h⟩
    · obtain ⟨a', ha', hf⟩ := ih hl
      exact ⟨a', List.mem_cons_of_mem _ ha', hf⟩
    · cases h

end ScratchMachine
