import Mathlib.Data.Fintype.Card
import ScratchMachine.Proofs.Assembly
import ScratchMachine.Proofs.Forward

/-!
# Programs that end

Where all jumps go forward, an active code object never comes back to an operation that it has executed.  So if besides
no subroutine calls itself, directly or through others, then every run ends, whatever the limits of the machine.

* `Machine.Moves.forward`: what a move does to one of the active code objects.
* `Progress.position_lt_of_active`: an active code object goes through its operations in their order.
* `Program.NonRecursive.frames_le`: active subroutines are all different.
* `Program.NonRecursive.ends`: every run comes to an end.
* `Compiler.compiled_program_ends`: all of this holds of programs that were compiled from trees without jumps.
-/

namespace ScratchMachine

open Progress

variable {m : Machine} {p : Program} {e e' : Execution} {code : CodeObject}

/-! ### One activation of a code object -/

/-- A jump that goes forward leads to a later position. -/
theorem Machine.Moves.lt_of_jump {op : Operation} {offset : Int32} {memory : Memory}
    (hforward : e.current.code.Forward) (hop : e.next? = some op)
    (hrun : op.execute.run.run e.memory = (.ok (.jump offset), memory)) :
    e.current.position < (e.current.position + offset.toInt).toNat := by
  have hmem : op ∈ e.current.code.ops := Array.mem_of_getElem? hop
  have hoffset : offset ∈ op.offsets := op.execute_answers e.memory _ memory hrun
  have hpos := (hforward op hmem).offset_pos offset hoffset
  omega

/-- A move leaves an active code object where it is, or takes it forward if it is the innermost one, as long as it
does not leave it. -/
theorem Machine.Moves.forward (h : Moves p e e') (hforward : e.current.code.Forward) {inner outer : List Frame}
    {pos : Nat} (hframes : e.frames = inner ++ ⟨code, pos⟩ :: outer) (hactive : outer.length ≤ e'.callers.length) :
    ∃ inner' pos', e'.frames = inner' ++ ⟨code, pos'⟩ :: outer ∧ pos ≤ pos' ∧ (inner = [] → pos < pos') := by
  cases inner with
  | nil =>
    obtain ⟨hcurrent, hcallers⟩ := List.cons.inj hframes
    cases h with
    | advance hop hrun =>
      refine ⟨[], pos + 1, ?_, by omega, fun _ => by omega⟩
      simp [Execution.frames, hcurrent, hcallers]
    | @jump op offset memory hop hrun =>
      have hlt := lt_of_jump hforward hop hrun
      rw [hcurrent] at hlt
      dsimp only at hlt
      refine ⟨[], (pos + offset.toInt).toNat, ?_, by omega, fun _ => hlt⟩
      simp [Execution.frames, hcurrent, hcallers]
    | @call id callee hop hcode =>
      refine ⟨[⟨callee, 0⟩], pos + 1, ?_, by omega, fun _ => by omega⟩
      simp [Execution.frames, hcurrent, hcallers]
    | @leave caller callers hop hleft =>
      have hactive : outer.length ≤ callers.length := hactive
      rw [← hcallers, hleft, List.length_cons] at hactive
      omega
  | cons f inner =>
    obtain ⟨-, hcallers⟩ := List.cons.inj hframes
    have hno : f :: inner = [] → pos < pos := fun heq => by cases heq
    cases h with
    | advance hop hrun =>
      exact ⟨⟨e.current.code, e.current.position + 1⟩ :: inner, pos, by simp [Execution.frames, hcallers], le_refl _, hno⟩
    | @jump op offset memory hop hrun =>
      exact ⟨⟨e.current.code, (e.current.position + offset.toInt).toNat⟩ :: inner, pos,
        by simp [Execution.frames, hcallers], le_refl _, hno⟩
    | @call id callee hop hcode =>
      exact ⟨⟨callee, 0⟩ :: ⟨e.current.code, e.current.position + 1⟩ :: inner, pos,
        by simp [Execution.frames, hcallers], le_refl _, hno⟩
    | leave hop hleft => exact ⟨inner, pos, hleft.symm.trans hcallers, le_refl _, hno⟩

namespace Progress

/-- As long as a code object is active, it goes through its operations in their order: when it is the innermost one
again, it is at a later one. -/
theorem position_lt_of_active (hforward : ∀ object ∈ p.code, object.Forward) {i j : Nat} (hij : i < j)
    (hi : (m.start p).after m p i = running e) (hj : (m.start p).after m p j = running e')
    (hactive : ∀ k, i ≤ k → k ≤ j → ¬ ((m.start p).after m p k).Surfaced e.callers.length)
    (hdepth : e'.callers.length = e.callers.length) :
    e'.current.code = e.current.code ∧ e.current.position < e'.current.position := by
  -- from the second moment on the code object has left the operation of the first one behind
  have hbehind : ∀ k mid, i < k → k ≤ j → (m.start p).after m p k = running mid →
      ∃ inner pos, mid.frames = inner ++ ⟨e.current.code, pos⟩ :: e.callers ∧ e.current.position < pos := by
    intro k
    induction k with
    | zero => exact fun mid hlt => absurd hlt (Nat.not_lt_zero i)
    | succ k ih =>
      intro mid hlt hle hmid
      obtain ⟨before, hbefore, hmoves⟩ := running_of_after_succ hmid
      have hcurrent : before.current.code.Forward :=
        hforward _ (Program.code_of_after hbefore _ (List.mem_cons_self ..))
      have hdeep : e.callers.length ≤ mid.callers.length := by
        have hnot := hactive (k + 1) (by omega) hle
        rw [hmid] at hnot
        exact Nat.le_of_not_lt hnot
      by_cases hik : i = k
      · subst hik
        cases hi.symm.trans hbefore
        have hinnermost : e.frames = [] ++ ⟨e.current.code, e.current.position⟩ :: e.callers := rfl
        obtain ⟨inner, pos, hframes, -, hpos⟩ := hmoves.forward hcurrent hinnermost hdeep
        exact ⟨inner, pos, hframes, hpos rfl⟩
      · obtain ⟨inner, pos, hframes, hpos⟩ := ih before (by omega) (by omega) hbefore
        obtain ⟨inner', pos', hframes', hle', -⟩ := hmoves.forward hcurrent hframes hdeep
        exact ⟨inner', pos', hframes', by omega⟩
  obtain ⟨inner, pos, hframes, hpos⟩ := hbehind j e' hij (le_refl j) hj
  cases inner with
  | nil =>
    obtain ⟨hcurrent, -⟩ := List.cons.inj hframes
    rw [hcurrent]
    exact ⟨rfl, hpos⟩
  | cons f inner =>
    have hlength : e'.callers.length = inner.length + (e.callers.length + 1) := by
      rw [(List.cons.inj hframes).2]
      exact List.length_append
    omega

/-- Control has left a code object that was called from the given ones: one of them goes on, or the run has ended. -/
def Left (callers : List Frame) : Progress → Prop
  | running e => e.frames = callers
  | ended _ _ => True

end Progress

/-! ### The call graph -/

namespace Program

/-- A subroutine has a call of another. -/
def CallEdge (p : Program) (id callee : SubroutineId) : Prop :=
  ∃ code, p.subroutine? id = some code ∧ .callsub callee ∈ code.ops

/-- No subroutine calls itself, directly or through others. -/
def NonRecursive (p : Program) : Prop := ∀ id, ¬ Relation.TransGen p.CallEdge id id

/-- The active code objects but the outermost are those of subroutines, each of which leads to those further in. -/
inductive Stacked (p : Program) : List Frame → List SubroutineId → Prop
  | main (f : Frame) : Stacked p [f] []
  | call {f : Frame} {frames : List Frame} {id : SubroutineId} {ids : List SubroutineId} :
      p.subroutine? id = some f.code → (∀ outer ∈ ids, Relation.TransGen p.CallEdge outer id) → Stacked p frames ids →
      Stacked p (f :: frames) (id :: ids)

namespace Stacked

variable {frames : List Frame} {ids : List SubroutineId} {f : Frame}

theorem length_eq (h : p.Stacked frames ids) : frames.length = ids.length + 1 := by
  induction h with
  | main f => rfl
  | call _ _ _ ih => rw [List.length_cons, List.length_cons, ih]

theorem exists_code (h : p.Stacked frames ids) {id : SubroutineId} (hid : id ∈ ids) :
    ∃ code, p.subroutine? id = some code := by
  induction h with
  | main f => cases hid
  | call hcode _ _ ih =>
    rcases List.mem_cons.1 hid with rfl | hid
    · exact ⟨_, hcode⟩
    · exact ih hid

theorem nodup (h : p.Stacked frames ids) (hp : p.NonRecursive) : ids.Nodup := by
  induction h with
  | main f => exact List.nodup_nil
  | call _ hleads _ ih => exact List.nodup_cons.2 ⟨fun hmem => hp _ (hleads _ hmem), ih⟩

/-- The innermost code object may be anywhere. -/
theorem moved (h : p.Stacked (f :: frames) ids) (pos : Nat) : p.Stacked (⟨f.code, pos⟩ :: frames) ids := by
  cases h with
  | main => exact .main _
  | call hcode hleads h => exact .call hcode hleads h

theorem moves (h : p.Stacked e.frames ids) (hmoves : Machine.Moves p e e') : ∃ ids', p.Stacked e'.frames ids' := by
  obtain ⟨current, frames, memory, steps⟩ := e
  cases hmoves with
  | advance hop hrun => exact ⟨ids, h.moved _⟩
  | jump hop hrun => exact ⟨ids, h.moved _⟩
  | @call id callee hop hcode =>
    refine ⟨id :: ids, .call hcode (fun outer houter => ?_) (h.moved _)⟩
    have hcall : .callsub id ∈ current.code.ops := Array.mem_of_getElem? hop
    cases h with
    | main f => cases houter
    | @call f frames caller ids hcaller hleads _ =>
      have hedge : p.CallEdge caller id := ⟨_, hcaller, hcall⟩
      rcases List.mem_cons.1 houter with rfl | houter
      · exact .single hedge
      · exact (hleads outer houter).tail hedge
  | @leave caller callers hop hcallers =>
    obtain rfl : frames = caller :: callers := hcallers
    cases h with
    | call _ _ h => exact ⟨_, h⟩

end Stacked

theorem stacked_of_after {n : Nat} (h : (m.start p).after m p n = running e) : ∃ ids, p.Stacked e.frames ids := by
  obtain ⟨main, -, hstart⟩ := running_of_start h
  rw [hstart] at h
  have hbegin : ∃ ids, p.Stacked (Execution.frames ⟨⟨main, 0⟩, [], .blank m.slotCount, 0⟩) ids := ⟨[], .main _⟩
  exact keeps_of_moves (P := fun e => ∃ ids, p.Stacked e.frames ids)
    (fun _ _ hmoves hids => hids.elim fun _ hstacked => hstacked.moves hmoves) hbegin h

namespace NonRecursive

/-- With no more than so many subroutines, no more code objects are active than these and the main one. -/
theorem frames_le (hp : p.NonRecursive) {known : List SubroutineId}
    (hknown : ∀ id code, p.subroutine? id = some code → id ∈ known) {n : Nat}
    (h : (m.start p).after m p n = running e) : e.frames.length ≤ 1 + known.length := by
  obtain ⟨ids, hstacked⟩ := stacked_of_after h
  have hsubset : ids ⊆ known := by
    intro id hid
    obtain ⟨code, hcode⟩ := hstacked.exists_code hid
    exact hknown id code hcode
  have hle := ((hstacked.nodup hp).subperm hsubset).length_le
  have heq := hstacked.length_eq
  omega

/-- There are only so many numbers of subroutines, so calls come to subroutines that call no others. -/
theorem wellFounded (hp : p.NonRecursive) :
    WellFounded fun callee caller => Relation.TransGen p.CallEdge caller callee := by
  have hfinite : Finite SubroutineId := by
    apply Finite.of_injective (fun id : SubroutineId => id.number.toFin)
    rintro ⟨a⟩ ⟨b⟩ hab
    exact congrArg SubroutineId.mk (UInt32.toFin_inj.1 hab)
  have htrans : IsTrans SubroutineId fun callee caller => Relation.TransGen p.CallEdge caller callee :=
    ⟨fun _ _ _ h h' => h'.trans h⟩
  have hirrefl : Std.Irrefl fun callee caller => Relation.TransGen p.CallEdge caller callee := ⟨hp⟩
  exact Finite.wellFounded_of_trans_of_irrefl _

end NonRecursive

end Program

/-! ### The end of runs -/

/-- From wherever it is, control comes to leave the code object. -/
def CodeObject.Comes (m : Machine) (p : Program) (code : CodeObject) : Prop :=
  ∀ pos callers memory steps, (running ⟨⟨code, pos⟩, callers, memory, steps⟩).Leads m p (Left callers)

/-- Control leaves code that goes forward only, if it leaves the subroutines that are called there. -/
theorem CodeObject.comes_of_calls (hforward : code.Forward)
    (hcalls : ∀ id callee, .callsub id ∈ code.ops → p.subroutine? id = some callee → callee.Comes m p) :
    code.Comes m p := by
  intro pos
  induction hleft : code.ops.size - pos using Nat.strongRecOn generalizing pos with
  | ind left ih =>
    intro callers memory steps
    have hlater : ∀ pos', pos < code.ops.size → pos < pos' → ∀ callers memory steps,
        (running ⟨⟨code, pos'⟩, callers, memory, steps⟩).Leads m p (Left callers) :=
      fun pos' hpos hlt => ih (code.ops.size - pos') (by omega) pos' rfl
    have hinside : ∀ op, (Execution.mk ⟨code, pos⟩ callers memory steps).next? = some op → pos < code.ops.size :=
      fun op hop => (Array.getElem?_eq_some_iff.1 hop).1
    apply Leads.step
    cases hstep : m.step p ⟨⟨code, pos⟩, callers, memory, steps⟩ with
    | ended outcome memory' => exact .here trivial
    | running e' =>
      cases Machine.moves_of_step hstep with
      | advance hop hrun => exact hlater _ (hinside _ hop) (Nat.lt_succ_self pos) ..
      | jump hop hrun => exact hlater _ (hinside _ hop) (Machine.Moves.lt_of_jump hforward hop hrun) ..
      | @call id callee hop hcode =>
        have hcallee := hcalls id callee (Array.mem_of_getElem? hop) hcode
        refine (hcallee 0 _ _ _).trans fun r hr => ?_
        cases r with
        | ended outcome memory' => exact .here trivial
        | running back =>
          obtain ⟨current, callers', memory', steps'⟩ := back
          have hcurrent : current = ⟨code, pos + 1⟩ := (List.cons.inj hr).1
          have hcallers : callers' = callers := (List.cons.inj hr).2
          rw [hcurrent, hcallers]
          exact hlater _ (hinside _ hop) (Nat.lt_succ_self pos) ..
      | leave hop hcallers => exact .here hcallers.symm

/-- A run ends if all jumps of the program go forward and no subroutine calls itself. -/
theorem Program.NonRecursive.ends (hp : p.NonRecursive) (hforward : ∀ object ∈ p.code, object.Forward) (m : Machine) :
    ∃ n outcome memory, (m.start p).after m p n = ended outcome memory := by
  have hsubroutine : ∀ id code, p.subroutine? id = some code → code.Comes m p := by
    intro id
    induction id using hp.wellFounded.induction with
    | _ id ih =>
      intro code hcode
      apply CodeObject.comes_of_calls (hforward code (mem_code_of_subroutine? hcode))
      intro callee code' hcall hcode'
      exact ih callee (.single ⟨code, hcode, hcall⟩) code' hcode'
  cases hstart : m.start p with
  | ended outcome memory => exact ⟨0, outcome, memory, rfl⟩
  | running e =>
    obtain ⟨main, hmain, hbegin⟩ := running_of_start (n := 0) hstart
    have hcomes : main.Comes m p := by
      apply CodeObject.comes_of_calls (hforward main (List.mem_of_head? hmain))
      exact fun id callee _ hcode => hsubroutine id callee hcode
    rw [← hstart, hbegin]
    obtain ⟨n, hlimited | hleft⟩ := hcomes 0 [] (.blank m.slotCount) 0
    · cases hend : (running ⟨⟨main, 0⟩, [], .blank m.slotCount, 0⟩).after m p n with
      | running e =>
        rw [hend] at hlimited
        exact hlimited.elim
      | ended outcome memory => exact ⟨n, outcome, memory, hend⟩
    · cases hend : (running ⟨⟨main, 0⟩, [], .blank m.slotCount, 0⟩).after m p n with
      | running e =>
        rw [hend] at hleft
        cases hleft
      | ended outcome memory => exact ⟨n, outcome, memory, hend⟩

/-! ### Compiled programs -/

namespace Compiler

/-- Programs that were compiled from trees without jumps go forward only.  While a code object is active, it never comes
back to an operation; and if no subroutine calls itself, directly or through others, then every run ends on every
machine, with no more code objects active at once than there are subroutines and the main program. -/
theorem compiled_program_ends {σ : Type} {c c' : Compiler σ} {root : Expr} {limit : Nat} {compilation : Compilation}
    (hc : c.Reachable) (hcompile : (compile limit root).run.run c = some (.ok compilation, c'))
    (hassemble : compilation.assemble = .ok p) (hroot : root.Everywhere Expr.Straight)
    (hbodies : ∀ decl ∈ compilation.declarations, decl.body.Everywhere Expr.Straight) :
    (∀ object ∈ p.code, object.Forward) ∧
      (∀ (m : Machine) i j e e', i < j → (m.start p).after m p i = running e → (m.start p).after m p j = running e' →
        (∀ k, i ≤ k → k ≤ j → ¬ ((m.start p).after m p k).Surfaced e.callers.length) →
        e'.callers.length = e.callers.length →
        e'.current.code = e.current.code ∧ e.current.position < e'.current.position) ∧
      (p.NonRecursive → ∀ m : Machine,
        (∃ n outcome memory, (m.start p).after m p n = ended outcome memory) ∧
          ∀ n e, (m.start p).after m p n = running e → e.frames.length ≤ 1 + compilation.declarations.length) := by
  have hforward := forward_of_compile hc hcompile hassemble hroot hbodies
  refine ⟨hforward, fun m i j e e' hij hi hj hactive hdepth => ?_, fun hp m => ⟨hp.ends hforward m, fun n e h => ?_⟩⟩
  · exact position_lt_of_active hforward hij hi hj hactive hdepth
  · have hcompiled := (compile_ensures hc.sound limit root).of_ok hcompile
    have hknown : ∀ id code, p.subroutine? id = some code → id ∈ compilation.declarations.map (·.subroutine.id) := by
      intro id code hcode
      have hsub := hcompiled.subroutine?_eq hassemble id
      cases hdecl : compilation.declaration? id with
      | none =>
        rw [hdecl] at hsub
        cases hcode.symm.trans hsub
      | some decl =>
        have hid : decl.subroutine.id = id := by simpa using List.find?_some hdecl
        exact List.mem_map.2 ⟨decl, List.mem_of_find?_eq_some hdecl, hid⟩
    have hle := hp.frames_le hknown h
    rwa [List.length_map] at hle

namespace Branching

/-- The subroutine that the main program calls in both arms of a conditional. -/
def handle : Subroutine := ⟨0, ⟨0⟩, "seven", [], .uint64⟩

def root : Expr := .ifElse (.int 0) (.add (.int 1) (.call handle [])) (.call handle [])

def created : Compiler Unit := { key := 0, options := {}, slots := .empty 256, host := () }

def compiler : Compiler Unit := (define created "seven" [] .uint64 fun _ _ => .done (.int 7)).2

def compilation : Compilation where
  options := {}
  graph := ⟨#[⟨[.int 0], .branch ⟨1⟩ ⟨5⟩ []⟩, ⟨[.int 1], .next ⟨2⟩⟩, ⟨[.callsub ⟨0⟩], .next ⟨3⟩⟩, ⟨[.add], .next ⟨4⟩⟩,
    ⟨[], .opened⟩, ⟨[.callsub ⟨0⟩], .next ⟨4⟩⟩, ⟨[.int 7], .next ⟨7⟩⟩, ⟨[.retsub], .terminal⟩]⟩
  main := ⟨⟨0⟩, some ⟨4⟩⟩
  declarations := [⟨handle, .int 7, ⟨⟨6⟩, none⟩, []⟩]

def main : CodeObject :=
  ⟨"main", #[.int 0, .jumpIfFalse 5, .int 1, .callsub ⟨0⟩, .add, .jump 2, .callsub ⟨0⟩]⟩

def seven : CodeObject := ⟨"seven", #[.int 7, .retsub]⟩

def program : Program where
  code := [main, seven]
  subroutines := .ofList [(⟨0⟩, 1)]

def machine : Machine := { slotCount := 0 }

theorem compile_root : ((compile 2 root).run.run compiler).map (·.1) = some (.ok compilation) := by
  cbv

theorem assemble_compilation : compilation.assemble = .ok program := by
  cbv

theorem nonRecursive_program : program.NonRecursive := by
  have hedge : ∀ id callee, ¬ program.CallEdge id callee := by
    rintro id callee ⟨code, hcode, hcall⟩
    have hcode' := hcode
    unfold Program.subroutine? at hcode'
    by_cases hid : id = ⟨0⟩
    · subst hid
      obtain rfl : seven = code := Option.some.inj hcode
      simp [seven] at hcall
    · have hnone : program.subroutines.find? id = none := by
        have hlookup : program.subroutines.entries = [(⟨0⟩, 1)] := rfl
        simp [SubroutineTable.find?, hlookup, List.lookup_cons, beq_eq_false_iff_ne.2 hid]
      rw [hnone] at hcode'
      cases hcode'
  intro id hcycle
  obtain ⟨callee, hcall, -⟩ := Relation.TransGen.head'_iff.1 hcycle
  exact hedge id callee hcall

end Branching

open Branching in
/-- The main program is before and after the call in one activation.  The program ends, with at most two code objects
active at once. -/
theorem compiled_program_ends_branching :
    main.Forward ∧
      (∃ e e', (machine.start program).after machine program 2 = running e ∧
        (machine.start program).after machine program 5 = running e' ∧ e.current.position < e'.current.position) ∧
      (∃ n outcome memory, (machine.start program).after machine program n = ended outcome memory) ∧
      ∀ n e, (machine.start program).after machine program n = running e → e.frames.length ≤ 2 := by
  have hcreate : create 0 {} () = .ok created := rfl
  have hreachable : compiler.Reachable := .define "seven" [] .uint64 _ (.create hcreate)
  obtain ⟨⟨answer, c'⟩, hcompile, hanswer⟩ := Option.map_eq_some_iff.1 compile_root
  obtain rfl : answer = .ok compilation := hanswer
  have hroot : root.Everywhere Expr.Straight := by
    have hint : ∀ n, (Expr.int n).Everywhere Expr.Straight := fun n => .intro trivial (by simp [Expr.parts])
    have hcall : (Expr.call handle []).Everywhere Expr.Straight := .intro trivial (by simp [Expr.parts])
    have hadd : (Expr.add (.int 1) (.call handle [])).Everywhere Expr.Straight := by
      have hparts : ∀ part ∈ [Expr.int 1, .call handle []], part.Everywhere Expr.Straight := by simp [hint, hcall]
      exact .intro ⟨rfl, rfl⟩ hparts
    have hparts : ∀ part ∈ [Expr.int 0, .add (.int 1) (.call handle []), .call handle []],
        part.Everywhere Expr.Straight := by simp [hint, hadd, hcall]
    exact .intro trivial hparts
  have hbodies : ∀ decl ∈ compilation.declarations, decl.body.Everywhere Expr.Straight := by
    intro decl hdecl
    obtain rfl := List.mem_singleton.1 hdecl
    exact .intro trivial (by simp [Expr.parts])
  obtain ⟨hforward, hactivation, hends⟩ := compiled_program_ends hreachable hcompile assemble_compilation hroot hbodies
  have hactive : ∀ k, 2 ≤ k → k ≤ 5 → ¬ ((machine.start program).after machine program k).Surfaced 0 := by
    intro k hlow hhigh
    have hcases : k = 2 ∨ k = 3 ∨ k = 4 ∨ k = 5 := by omega
    rcases hcases with rfl | rfl | rfl | rfl <;> cbv
  have hlater := hactivation machine 2 5 ⟨⟨main, 6⟩, [], ⟨[], #[]⟩, 2⟩ ⟨⟨main, 7⟩, [], ⟨[.uint 7], #[]⟩, 5⟩ (by decide)
    (by cbv) (by cbv) hactive rfl
  exact ⟨hforward main (List.mem_cons_self ..), ⟨_, _, by cbv, by cbv, hlater.2⟩, hends nonRecursive_program machine⟩

end Compiler

end ScratchMachine
