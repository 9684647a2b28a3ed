import Mathlib.Data.List.Forall2
import ScratchMachine.Proofs.Behaviour

/-!
# Running linear code

What a code object does by itself, from each of its positions, with the behaviour of its calls as a parameter and
without limits.

* `CodeObject.runs_eq`: a run is one move and then a run.  `CodeObject.runs_le`: it is nothing else.
* `Program.calls_eq`: a call runs the code object of the subroutine, whose calls are again those of the program.
-/

namespace ScratchMachine

open Behaviour Effect Fallible

namespace CodeObject

variable {calls : Calls} {code : CodeObject}

/-- How control can run through a code object from a position. -/
inductive Runs (calls : Calls) (code : CodeObject) : Nat → Memory → Flow → Memory → Prop
  | finish {pos : Nat} {m : Memory} : code.ops[pos]? = none → Runs calls code pos m .done m
  | fault {pos : Nat} {op m fault m'} : code.ops[pos]? = some op → op.execute.run.run m = (.error fault, m') →
      Runs calls code pos m (.fault ⟨fault, []⟩) m'
  | advance {pos : Nat} {op m mid f m'} : code.ops[pos]? = some op → op.execute.run.run m = (.ok .advance, mid) →
      Runs calls code (pos + 1) mid f m' → Runs calls code pos m f m'
  | jump {pos : Nat} {op m offset mid f m'} : code.ops[pos]? = some op →
      op.execute.run.run m = (.ok (.jump offset), mid) →
      0 ≤ pos + offset.toInt ∧ pos + offset.toInt ≤ code.ops.size →
      Runs calls code (pos + offset.toInt).toNat mid f m' → Runs calls code pos m f m'
  /-- A jump leads out of the code. -/
  | wild {pos : Nat} {op m offset m'} : code.ops[pos]? = some op →
      op.execute.run.run m = (.ok (.jump offset), m') →
      ¬ (0 ≤ pos + offset.toInt ∧ pos + offset.toInt ≤ code.ops.size) →
      Runs calls code pos m (.fault ⟨.jumpOutOfBounds pos offset, []⟩) m'
  /-- The callee comes back. -/
  | back {pos : Nat} {op m id mid mid' f m'} : code.ops[pos]? = some op →
      op.execute.run.run m = (.ok (.call id), mid) → calls id mid .done mid' →
      Runs calls code (pos + 1) mid' f m' → Runs calls code pos m f m'
  /-- The callee does not come back. -/
  | away {pos : Nat} {op m id mid f m'} : code.ops[pos]? = some op →
      op.execute.run.run m = (.ok (.call id), mid) → calls id mid f m' → f ≠ .done → Runs calls code pos m f m'
  | leave {pos : Nat} {op m m'} : code.ops[pos]? = some op → op.execute.run.run m = (.ok .leave, m') →
      Runs calls code pos m .leave m'
  | halt {pos : Nat} {op m v m'} : code.ops[pos]? = some op → op.execute.run.run m = (.ok (.halt v), m') →
      Runs calls code pos m (.halt v) m'

/-! ### One move -/

/-- What control does after the operation at a position, given what it does from the other positions. -/
def onward (calls : Calls) (code : CodeObject) (go : Nat → Behaviour) (pos : Nat) : Continuation → Behaviour
  | .advance => go (pos + 1)
  | .jump offset =>
    if 0 ≤ pos + offset.toInt ∧ pos + offset.toInt ≤ code.ops.size then go (pos + offset.toInt).toNat
    else exit (.fault ⟨.jumpOutOfBounds pos offset, []⟩)
  | .call id => (calls id).andThen (go (pos + 1))
  | .leave => exit .leave
  | .halt v => exit (.halt v)

/-- What control does from a position, given what it does from the other positions. -/
def move (calls : Calls) (code : CodeObject) (go : Nat → Behaviour) (pos : Nat) : Behaviour :=
  match code.ops[pos]? with
  | none => skip
  | some op => perform op.execute (code.onward calls go pos)

variable {go : Nat → Behaviour} {pos : Nat}

theorem move_end (hop : code.ops[pos]? = none) : code.move calls go pos = skip := by
  rw [move, hop]

theorem move_proceed {op : Operation} {m mid : Memory} {c : Continuation} (hop : code.ops[pos]? = some op)
    (hrun : op.execute.run.run m = (.ok c, mid)) :
    code.move calls go pos m = code.onward calls go pos c mid := by
  rw [move, hop]
  exact perform_ok hrun _

theorem move_fault {op : Operation} {m mid : Memory} {fault : Fault} (hop : code.ops[pos]? = some op)
    (hrun : op.execute.run.run m = (.error fault, mid)) :
    code.move calls go pos m = exit (.fault ⟨fault, []⟩) mid := by
  rw [move, hop]
  exact perform_error hrun _

theorem move_of_runs {m m' : Memory} {f : Flow} (h : code.Runs calls pos m f m') :
    code.move calls (code.Runs calls) pos m f m' := by
  cases h with
  | finish hop =>
    rw [move_end hop]
    exact ⟨rfl, rfl⟩
  | fault hop hrun =>
    rw [move_fault hop hrun]
    exact ⟨rfl, rfl⟩
  | advance hop hrun h =>
    rw [move_proceed hop hrun]
    exact h
  | jump hop hrun hrange h =>
    rw [move_proceed hop hrun, onward, if_pos hrange]
    exact h
  | wild hop hrun hrange =>
    rw [move_proceed hop hrun, onward, if_neg hrange]
    exact ⟨rfl, rfl⟩
  | back hop hrun hcall h =>
    rw [move_proceed hop hrun]
    exact .inl ⟨_, hcall, h⟩
  | away hop hrun hcall hf =>
    rw [move_proceed hop hrun]
    exact .inr ⟨hf, hcall⟩
  | leave hop hrun =>
    rw [move_proceed hop hrun]
    exact ⟨rfl, rfl⟩
  | halt hop hrun =>
    rw [move_proceed hop hrun]
    exact ⟨rfl, rfl⟩

theorem runs_of_move {m m' : Memory} {f : Flow} (h : code.move calls (code.Runs calls) pos m f m') :
    code.Runs calls pos m f m' := by
  cases hop : code.ops[pos]? with
  | none =>
    rw [move_end hop] at h
    obtain ⟨rfl, rfl⟩ := h
    exact .finish hop
  | some op =>
    rcases hrun : op.execute.run.run m with ⟨fault | c, mid⟩
    · rw [move_fault hop hrun] at h
      obtain ⟨rfl, rfl⟩ := h
      exact .fault hop hrun
    rw [move_proceed hop hrun] at h
    cases c with
    | advance => exact .advance hop hrun h
    | jump offset =>
      rw [onward] at h
      by_cases hrange : 0 ≤ pos + offset.toInt ∧ pos + offset.toInt ≤ code.ops.size
      · rw [if_pos hrange] at h
        exact .jump hop hrun hrange h
      · rw [if_neg hrange] at h
        obtain ⟨rfl, rfl⟩ := h
        exact .wild hop hrun hrange
    | call id =>
      -- control goes on with the next operation only if the callee comes back
      rcases h with ⟨mid', hcall, h⟩ | ⟨hf, hcall⟩
      · exact .back hop hrun hcall h
      · exact .away hop hrun hcall hf
    | leave =>
      obtain ⟨rfl, rfl⟩ := h
      exact .leave hop hrun
    | halt v =>
      obtain ⟨rfl, rfl⟩ := h
      exact .halt hop hrun

/-- A run makes one move and then goes on as a run. -/
theorem runs_eq (calls : Calls) (code : CodeObject) (pos : Nat) :
    code.Runs calls pos = code.move calls (code.Runs calls) pos := by
  funext m f m'
  exact propext ⟨move_of_runs, runs_of_move⟩

/-- Runs do only what has to be possible because each single move is. -/
theorem runs_le (h : ∀ pos, code.move calls go pos ≤ go pos) (pos : Nat) :
    code.Runs calls pos ≤ go pos := by
  intro m f m' hrun
  induction hrun with
  | @finish pos m hop =>
    apply h pos
    rw [move_end hop]
    exact ⟨rfl, rfl⟩
  | @fault pos op m fault m' hop hrun =>
    apply h pos
    rw [move_fault hop hrun]
    exact ⟨rfl, rfl⟩
  | @advance pos op m mid f m' hop hrun _ ih =>
    apply h pos
    rw [move_proceed hop hrun]
    exact ih
  | @jump pos op m offset mid f m' hop hrun hrange _ ih =>
    apply h pos
    rw [move_proceed hop hrun, onward, if_pos hrange]
    exact ih
  | @wild pos op m offset m' hop hrun hrange =>
    apply h pos
    rw [move_proceed hop hrun, onward, if_neg hrange]
    exact ⟨rfl, rfl⟩
  | @back pos op m id mid mid' f m' hop hrun hcall _ ih =>
    apply h pos
    rw [move_proceed hop hrun]
    exact .inl ⟨_, hcall, ih⟩
  | @away pos op m id mid f m' hop hrun hcall hf =>
    apply h pos
    rw [move_proceed hop hrun]
    exact .inr ⟨hf, hcall⟩
  | @leave pos op m m' hop hrun =>
    apply h pos
    rw [move_proceed hop hrun]
    exact ⟨rfl, rfl⟩
  | @halt pos op m v m' hop hrun =>
    apply h pos
    rw [move_proceed hop hrun]
    exact ⟨rfl, rfl⟩

/-! ### Moves by kind of operation -/

theorem move_op {op : Operation} (hop : code.ops[pos]? = some op) (hjump : op.isJump = false) :
    code.move calls go pos = (op.behaviour calls).andThen (go (pos + 1)) := by
  rw [move, hop]
  dsimp only
  rw [Operation.behaviour, perform_andThen]
  refine perform_congr fun m c m' hc => ?_
  have hans := op.execute_answers m c m' hc
  cases c with
  | advance => exact (skip_andThen _).symm
  | jump offset => exact absurd hans (by cases op <;> simp_all [Operation.isJump, Operation.Answering, Operation.offsets])
  | call id => rfl
  | leave => exact ((stops_exit (by simp)).andThen _).symm
  | halt v => exact ((stops_exit (by simp)).andThen _).symm

theorem move_jump {offset : Int32} {target : Nat} (hop : code.ops[pos]? = some (.jump offset))
    (htarget : pos + offset.toInt = target) (hrange : target ≤ code.ops.size) :
    code.move calls go pos = go target := by
  rw [move, hop]
  dsimp only
  rw [Operation.execute, perform_pure, onward, if_pos (by omega), htarget]
  rfl

theorem move_jumpIfFalse {offset : Int32} {target : Nat} (hop : code.ops[pos]? = some (.jumpIfFalse offset))
    (htarget : pos + offset.toInt = target) (hrange : target ≤ code.ops.size) :
    code.move calls go pos = choose (go (pos + 1)) (go target) := by
  rw [move, hop]
  dsimp only
  rw [Operation.execute, perform_bind, choose]
  congr 1
  funext n
  rw [perform_pure]
  by_cases hn : n = 0
  · rw [if_pos hn, if_neg (by simp [hn]), onward, if_pos (by omega), htarget]
    rfl
  · rw [if_neg hn, if_pos hn, onward]

private theorem getElem?_cases {α β : Type} {r : α → β → Prop} {l : List α} {l' : List β}
    (h : List.Forall₂ r l l') (i : Nat) :
    (∃ a b, l[i]? = some a ∧ l'[i]? = some b ∧ b ∈ l' ∧ r a b) ∨ (l[i]? = none ∧ l'[i]? = none) := by
  induction h generalizing i with
  | nil => exact .inr ⟨rfl, rfl⟩
  | @cons a b l l' hab _ ih =>
    cases i with
    | zero => exact .inl ⟨a, b, rfl, rfl, List.mem_cons_self .., hab⟩
    | succ i =>
      rcases ih i with ⟨a', b', ha, hb, hmem, hr⟩ | hnone
      · exact .inl ⟨a', b', by simpa using ha, by simpa using hb, List.mem_cons_of_mem _ hmem, hr⟩
      · exact .inr (by simpa using hnone)

theorem move_switch {offsets : List Int32} {targets : List Nat} (hop : code.ops[pos]? = some (.switch offsets))
    (htargets : List.Forall₂ (fun (offset : Int32) (target : Nat) => pos + offset.toInt = (target : Int))
      offsets targets)
    (hrange : ∀ target ∈ targets, target ≤ code.ops.size) :
    code.move calls go pos = perform Effect.popInteger fun i => (targets.map go).getD i.toNat (go (pos + 1)) := by
  rw [move, hop]
  dsimp only
  rw [Operation.execute, perform_bind]
  congr 1
  funext i
  rw [perform_pure, List.getD_eq_getElem?_getD, List.getElem?_map]
  rcases getElem?_cases htargets i.toNat with ⟨offset, target, ho, ht, hmem, heq⟩ | ⟨ho, ht⟩
  · have hle := hrange target hmem
    rw [ho, ht]
    show onward calls code go pos (.jump offset) = go target
    rw [onward, if_pos (by omega), heq]
    rfl
  · rw [ho, ht]
    rfl

end CodeObject

/-! ### The calls of a program -/

namespace Program

/-- The behaviour of the calls of a program, as far as they nest at most to a depth. -/
def callsWithin (p : Program) : Nat → Calls
  | 0, _ => never
  | depth + 1, id =>
    match p.subroutine? id with
    | none => exit (.fault ⟨.undefinedSubroutine id, []⟩)
    | some code => asCall code.name (code.Runs (p.callsWithin depth) 0)

/-- The behaviour of the calls of a program. -/
def calls (p : Program) : Calls := fun id m f m' => ∃ depth, p.callsWithin depth id m f m'

end Program

namespace CodeObject

theorem runs_mono (code : CodeObject) : Monotone fun calls => code.Runs calls := by
  intro calls calls' h pos m f m' hrun
  induction hrun with
  | finish hpos => exact .finish hpos
  | fault hop hrun => exact .fault hop hrun
  | advance hop hrun _ ih => exact .advance hop hrun ih
  | jump hop hrun hrange _ ih => exact .jump hop hrun hrange ih
  | wild hop hrun hrange => exact .wild hop hrun hrange
  | back hop hrun hcall _ ih => exact .back hop hrun (h _ _ _ _ hcall) ih
  | away hop hrun hcall hf => exact .away hop hrun (h _ _ _ _ hcall) hf
  | leave hop hrun => exact .leave hop hrun
  | halt hop hrun => exact .halt hop hrun

end CodeObject

namespace Program

theorem callsWithin_mono (p : Program) : Monotone p.callsWithin := by
  refine monotone_nat_of_le_succ fun depth => ?_
  induction depth with
  | zero => exact fun id m f m' h => h.elim
  | succ depth ih =>
    intro id
    show p.callsWithin (depth + 1) id ≤ p.callsWithin (depth + 2) id
    unfold callsWithin
    split
    · exact le_refl _
    · exact asCall_mono _ (CodeObject.runs_mono _ ih 0)

/-- A run makes finitely many calls, so their depth is bounded. -/
theorem runs_calls {p : Program} {code : CodeObject} {pos : Nat} {m m' : Memory} {f : Flow}
    (h : code.Runs p.calls pos m f m') : ∃ depth, code.Runs (p.callsWithin depth) pos m f m' := by
  induction h with
  | finish hpos => exact ⟨0, .finish hpos⟩
  | fault hop hrun => exact ⟨0, .fault hop hrun⟩
  | advance hop hrun _ ih =>
    obtain ⟨depth, h⟩ := ih
    exact ⟨depth, .advance hop hrun h⟩
  | jump hop hrun hrange _ ih =>
    obtain ⟨depth, h⟩ := ih
    exact ⟨depth, .jump hop hrun hrange h⟩
  | wild hop hrun hrange => exact ⟨0, .wild hop hrun hrange⟩
  | back hop hrun hcall _ ih =>
    obtain ⟨depth, hcall⟩ := hcall
    obtain ⟨depth', h⟩ := ih
    -- the callee may need another depth than the rest of the run
    refine ⟨max depth depth', .back hop hrun (p.callsWithin_mono (le_max_left ..) _ _ _ _ hcall) ?_⟩
    exact CodeObject.runs_mono _ (p.callsWithin_mono (le_max_right ..)) _ _ _ _ h
  | away hop hrun hcall hf =>
    obtain ⟨depth, hcall⟩ := hcall
    exact ⟨depth, .away hop hrun hcall hf⟩
  | leave hop hrun => exact ⟨0, .leave hop hrun⟩
  | halt hop hrun => exact ⟨0, .halt hop hrun⟩

theorem callsWithin_le_calls (p : Program) (depth : Nat) : p.callsWithin depth ≤ p.calls :=
  fun _ _ _ _ h => ⟨depth, h⟩

/-- A call runs the code object of the subroutine. -/
theorem calls_eq (p : Program) (id : SubroutineId) :
    p.calls id = match p.subroutine? id with
      | none => exit (.fault ⟨.undefinedSubroutine id, []⟩)
      | some code => asCall code.name (code.Runs p.calls 0) := by
  cases hcode : p.subroutine? id with
  | none =>
    have hwithin : ∀ depth, p.callsWithin (depth + 1) id = exit (.fault ⟨.undefinedSubroutine id, []⟩) := by
      intro depth
      rw [callsWithin, hcode]
    funext m f m'
    refine propext ⟨?_, fun h => ⟨1, ?_⟩⟩
    · rintro ⟨_ | depth, h⟩
      · exact h.elim
      · rwa [hwithin] at h
    · rwa [hwithin]
  | some code =>
    have hwithin : ∀ depth,
        p.callsWithin (depth + 1) id = asCall code.name (code.Runs (p.callsWithin depth) 0) := by
      intro depth
      rw [callsWithin, hcode]
    funext m f m'
    refine propext ⟨?_, ?_⟩
    · rintro ⟨_ | depth, h⟩
      · exact h.elim
      · rw [hwithin] at h
        exact asCall_mono _ (CodeObject.runs_mono _ (p.callsWithin_le_calls depth) 0) _ _ _ h
    · rintro ⟨g, hrun, rfl⟩
      obtain ⟨depth, hrun⟩ := runs_calls hrun
      refine ⟨depth + 1, ?_⟩
      rw [hwithin]
      exact ⟨g, hrun, rfl⟩

end Program

end ScratchMachine
