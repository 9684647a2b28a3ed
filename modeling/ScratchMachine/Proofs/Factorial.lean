import Mathlib.Data.Nat.Factorial.Basic
import ScratchMachine.Proofs.Stretches
import ScratchMachine.Proofs.Versions

/-!
# The factorial

A subroutine that calls itself computes the factorial.  All its activations share one slot for the parameter.  Each
leaves its own argument on the stack before it calls the next one, which is why the slot may be overwritten.

* `Factorial.takes_factorial`: what an activation does, with the arguments of all outer ones on the stack.
* `Factorial.script_yields`: the program that the subroutine and a call of it compile to.
* `Factorial.run_eq_factorial`: the program ends with the factorial, modulo two to the 64th.
-/

namespace ScratchMachine

open Progress

namespace Factorial

/-! ### The code -/

/-- The subroutine: `if n <= 1 then 1 else n * fac(n - 1)`. -/
def fac : CodeObject where
  name := "fac"
  ops := #[.store 0, .load 0, .int 1, .le, .jumpIfFalse 3, .int 1, .jump 7,
    .load 0, .load 0, .int 1, .sub, .callsub ⟨0⟩, .mul, .retsub]

def main (n : UInt64) : CodeObject := ⟨"main", #[.int n, .callsub ⟨0⟩]⟩

def program (n : UInt64) : Program where
  code := [main n, fac]
  subroutines := .ofList [(⟨0⟩, 1)]

theorem subroutine_program (n : UInt64) : (program n).subroutine? ⟨0⟩ = some fac := rfl

/-! ### Values -/

/-- The factorial as the machine computes it. -/
def value (n : UInt64) : UInt64 := .ofNat n.toNat.factorial

theorem toNat_value (n : UInt64) : (value n).toNat = n.toNat.factorial % 2 ^ 64 := UInt64.toNat_ofNat'

theorem value_of_le_one {n : UInt64} (h : n ≤ 1) : value n = 1 := by
  rw [value, Nat.factorial_eq_one.2 (UInt64.le_iff_toNat_le.1 h)]
  rfl

theorem toNat_pred {n : UInt64} (h : ¬ n ≤ 1) : 1 < n.toNat ∧ (n - 1).toNat = n.toNat - 1 := by
  have hlt : 1 < n.toNat := Nat.lt_of_not_le fun hle => h (UInt64.le_iff_toNat_le.2 hle)
  exact ⟨hlt, UInt64.toNat_sub_of_le n 1 (UInt64.le_iff_toNat_le.2 (Nat.le_of_lt hlt))⟩

theorem mul_value_pred {n : UInt64} (h : ¬ n ≤ 1) : n * value (n - 1) = value n := by
  obtain ⟨hlt, hpred⟩ := toNat_pred h
  have hfactorial := Nat.mul_factorial_pred (n := n.toNat) (by omega)
  rw [value, value, hpred, ← hfactorial, UInt64.ofNat_mul, UInt64.ofNat_toNat]

/-! ### Stretches of the subroutine -/

variable {m : Machine} {p : Program} {n : UInt64} {scratch : Array Value}

/-- The argument moves to the slot, and is compared with one. -/
theorem takes_test (stack : List Value) (callers : List Frame) (hfree : m.steps = none)
    (hfit : stack.length + 2 ≤ m.stackSize) (hslot : 0 < scratch.size) :
    m.Takes p ⟨⟨fac, 0⟩, callers, ⟨.uint n :: stack, scratch⟩, 0⟩
      ⟨⟨fac, 4⟩, callers, ⟨.uint (if n ≤ 1 then 1 else 0) :: stack, scratch.setIfInBounds 0 (.uint n)⟩, 0⟩ := by
  have hfit₁ : stack.length + 1 ≤ m.stackSize := Nat.le_of_succ_le hfit
  have hheld : (scratch.setIfInBounds 0 (.uint n))[(0 : UInt64).toNat]? = some (.uint n) := by simp [hslot]
  calc
    m.Takes p ⟨⟨fac, 0⟩, callers, ⟨.uint n :: stack, scratch⟩, 0⟩
        ⟨⟨fac, 1⟩, callers, ⟨stack, scratch.setIfInBounds 0 (.uint n)⟩, 0⟩ :=
      .advance hfree hfit₁ rfl (Operation.run_store _ _ hslot)
    m.Takes p _ ⟨⟨fac, 2⟩, callers, ⟨.uint n :: stack, scratch.setIfInBounds 0 (.uint n)⟩, 0⟩ :=
      .advance hfree (Nat.le_of_succ_le hfit₁) rfl (Operation.run_load hheld)
    m.Takes p _ ⟨⟨fac, 3⟩, callers, ⟨.uint 1 :: .uint n :: stack, scratch.setIfInBounds 0 (.uint n)⟩, 0⟩ :=
      .advance hfree hfit₁ rfl rfl
    m.Takes p _ ⟨⟨fac, 4⟩, callers, _, 0⟩ :=
      .advance hfree hfit rfl (Operation.run_le n 1 stack _)

/-- After the test has succeeded, the subroutine leaves one. -/
theorem takes_one (stack : List Value) (caller : Frame) (callers : List Frame) (hfree : m.steps = none)
    (hfit : stack.length + 1 ≤ m.stackSize) :
    m.Takes p ⟨⟨fac, 4⟩, caller :: callers, ⟨.uint 1 :: stack, scratch⟩, 0⟩
      ⟨caller, callers, ⟨.uint 1 :: stack, scratch⟩, 0⟩ := by
  calc
    m.Takes p ⟨⟨fac, 4⟩, caller :: callers, ⟨.uint 1 :: stack, scratch⟩, 0⟩
        ⟨⟨fac, 5⟩, caller :: callers, ⟨stack, scratch⟩, 0⟩ := .advance hfree hfit rfl rfl
    m.Takes p _ ⟨⟨fac, 6⟩, caller :: callers, ⟨.uint 1 :: stack, scratch⟩, 0⟩ :=
      .advance hfree (Nat.le_of_succ_le hfit) rfl rfl
    m.Takes p _ ⟨⟨fac, 13⟩, caller :: callers, ⟨.uint 1 :: stack, scratch⟩, 0⟩ :=
      .jump hfree hfit rfl rfl rfl (by decide)
    m.Takes p _ ⟨caller, callers, ⟨.uint 1 :: stack, scratch⟩, 0⟩ := .leave hfree hfit rfl

/-- After the test has failed, the subroutine calls itself, with its argument left on the stack. -/
theorem takes_self (stack : List Value) (callers : List Frame) (hfree : m.steps = none)
    (hcode : p.subroutine? ⟨0⟩ = some fac) (hfit : stack.length + 3 ≤ m.stackSize)
    (hdepth : callers.length + 1 < m.callDepth) (hheld : scratch[(0 : UInt64).toNat]? = some (.uint n)) :
    m.Takes p ⟨⟨fac, 4⟩, callers, ⟨.uint 0 :: stack, scratch⟩, 0⟩
      ⟨⟨fac, 0⟩, ⟨fac, 12⟩ :: callers, ⟨.uint (n - 1) :: .uint n :: stack, scratch⟩, 0⟩ := by
  have hfit₂ : stack.length + 2 ≤ m.stackSize := Nat.le_of_succ_le hfit
  have hfit₁ : stack.length + 1 ≤ m.stackSize := Nat.le_of_succ_le hfit₂
  calc
    m.Takes p ⟨⟨fac, 4⟩, callers, ⟨.uint 0 :: stack, scratch⟩, 0⟩ ⟨⟨fac, 7⟩, callers, ⟨stack, scratch⟩, 0⟩ :=
      .jump hfree hfit₁ rfl rfl rfl (by decide)
    m.Takes p _ ⟨⟨fac, 8⟩, callers, ⟨.uint n :: stack, scratch⟩, 0⟩ :=
      .advance hfree (Nat.le_of_succ_le hfit₁) rfl (Operation.run_load hheld)
    m.Takes p _ ⟨⟨fac, 9⟩, callers, ⟨.uint n :: .uint n :: stack, scratch⟩, 0⟩ :=
      .advance hfree hfit₁ rfl (Operation.run_load hheld)
    m.Takes p _ ⟨⟨fac, 10⟩, callers, ⟨.uint 1 :: .uint n :: .uint n :: stack, scratch⟩, 0⟩ :=
      .advance hfree hfit₂ rfl rfl
    m.Takes p _ ⟨⟨fac, 11⟩, callers, ⟨.uint (n - 1) :: .uint n :: stack, scratch⟩, 0⟩ := .advance hfree hfit rfl rfl
    m.Takes p _ ⟨⟨fac, 0⟩, ⟨fac, 12⟩ :: callers, ⟨.uint (n - 1) :: .uint n :: stack, scratch⟩, 0⟩ :=
      .call hfree hfit₂ rfl hcode hdepth

/-- When the inner activation has come back, the subroutine multiplies its argument with what that left. -/
theorem takes_product (n v : UInt64) (stack : List Value) (scratch : Array Value) (caller : Frame) (callers : List Frame)
    (hfree : m.steps = none) (hfit : stack.length + 2 ≤ m.stackSize) :
    m.Takes p ⟨⟨fac, 12⟩, caller :: callers, ⟨.uint v :: .uint n :: stack, scratch⟩, 0⟩
      ⟨caller, callers, ⟨.uint (n * v) :: stack, scratch⟩, 0⟩ := by
  calc
    m.Takes p ⟨⟨fac, 12⟩, caller :: callers, ⟨.uint v :: .uint n :: stack, scratch⟩, 0⟩
        ⟨⟨fac, 13⟩, caller :: callers, ⟨.uint (n * v) :: stack, scratch⟩, 0⟩ := .advance hfree hfit rfl rfl
    m.Takes p _ ⟨caller, callers, ⟨.uint (n * v) :: stack, scratch⟩, 0⟩ := .leave hfree (Nat.le_of_succ_le hfit) rfl

/-! ### An activation -/

/-- Of an argument that is at most one, an activation leaves one. -/
theorem takes_factorial_of_le_one (stack : List Value) (caller : Frame) (callers : List Frame)
    (hfree : m.steps = none) (hfit : stack.length + 2 ≤ m.stackSize) (hslot : 0 < scratch.size) (hn : n ≤ 1) :
    m.Takes p ⟨⟨fac, 0⟩, caller :: callers, ⟨.uint n :: stack, scratch⟩, 0⟩
      ⟨caller, callers, ⟨.uint (value n) :: stack, scratch.setIfInBounds 0 (.uint n)⟩, 0⟩ := by
  have htest := takes_test (p := p) (n := n) stack (caller :: callers) hfree hfit hslot
  rw [if_pos hn] at htest
  rw [value_of_le_one hn]
  exact htest.trans (takes_one stack caller callers hfree (Nat.le_of_succ_le hfit))

/-- An activation replaces its argument by the factorial.  Below the argument stand those of the outer activations, which
stay there, whereas the slot is left with whatever the inner ones put into it. -/
theorem takes_factorial (stack : List Value) (caller : Frame) (callers : List Frame) (hfree : m.steps = none)
    (hcode : p.subroutine? ⟨0⟩ = some fac) (hfit : stack.length + n.toNat + 2 ≤ m.stackSize)
    (hdepth : callers.length + 1 + max n.toNat 1 ≤ m.callDepth) (hslot : 0 < scratch.size) :
    ∃ scratch', m.Takes p ⟨⟨fac, 0⟩, caller :: callers, ⟨.uint n :: stack, scratch⟩, 0⟩
      ⟨caller, callers, ⟨.uint (value n) :: stack, scratch'⟩, 0⟩ := by
  -- the argument decreases from one activation to the next, until it is one
  induction hk : n.toNat generalizing n stack scratch caller callers with
  | zero =>
    have hn : n ≤ 1 := UInt64.le_iff_toNat_le.2 (by omega)
    exact ⟨_, takes_factorial_of_le_one stack caller callers hfree (by omega) hslot hn⟩
  | succ k ih =>
    by_cases hn : n ≤ 1
    · exact ⟨_, takes_factorial_of_le_one stack caller callers hfree (by omega) hslot hn⟩
    obtain ⟨hlt, hpred⟩ := toNat_pred hn
    have htest := takes_test (p := p) (n := n) stack (caller :: callers) hfree (by omega) hslot
    rw [if_neg hn] at htest
    have hheld : (scratch.setIfInBounds 0 (.uint n))[(0 : UInt64).toNat]? = some (.uint n) := by simp [hslot]
    have hself := takes_self stack (caller :: callers) hfree hcode (by omega) (by rw [List.length_cons]; omega) hheld
    -- the inner activation finds one value more on the stack, and one caller more
    have hslot' : 0 < (scratch.setIfInBounds 0 (.uint n)).size := by rwa [Array.size_setIfInBounds]
    obtain ⟨scratch', hinner⟩ := @ih (n - 1) _ (.uint n :: stack) ⟨fac, 12⟩ (caller :: callers)
      (by rw [List.length_cons]; omega) (by rw [List.length_cons]; omega) hslot' (by omega)
    have hproduct := takes_product (p := p) n (value (n - 1)) stack scratch' caller callers hfree (by omega)
    rw [mul_value_pred hn] at hproduct
    exact ⟨scratch', ((htest.trans hself).trans hinner).trans hproduct⟩

/-! ### The tree and what it compiles to -/

variable {σ : Type}

/-- The host's builder of the body: `if n <= 1 then 1 else n * fac(n - 1)`. -/
def body : Body σ := fun self args =>
  match args with
  | [.value n] =>
    Builder.orFail (fun inner => .done (.ifElse (.le n (.int 1)) (.int 1) (.mul n inner)))
      (self.call [.value (.sub n (.int 1))])
  | _ => .fail .programWithoutValue

/-- The host defines the subroutine, and has the main program call it on a literal. -/
def script (n : UInt64) : Builder σ :=
  .define "fac" [⟨"n", .value, .any⟩] .uint64 body fun self => Builder.orFail .done (self.call [.value (.int n)])

/-- The host asks for no variable, so it does not depend on how many slots there are. -/
theorem script_follows (n : UInt64) : Builder.Follows False (script (σ := σ) n) (script n) := by
  refine .define _ _ _ (fun self args => ?_) fun self => ?_
  · unfold body
    split
    · cases self.call _ with
      | ok inner => exact .done _
      | error e => exact .fail e _
    · exact .fail _ _
  · cases self.call [.value (.int n)] with
    | ok call => exact .done call
    | error e => exact .fail e _

def handle (key : Nat) : Subroutine := ⟨key, ⟨0⟩, "fac", [⟨"n", .value, .any⟩], .uint64⟩

def root (key : Nat) (n : UInt64) : Expr := .call (handle key) [.value (.int n)]

/-- The variable that holds the argument. -/
def holder : Variable := ⟨.any, .pooled 0, none⟩

def tree (key : Nat) : Expr :=
  .ifElse (.le holder.load (.int 1)) (.int 1)
    (.mul holder.load (.call (handle key) [.value (.sub holder.load (.int 1))]))

/-- A compiler for the lowest version that has calls, with a single slot. -/
def created (key : Nat) (host : σ) : Compiler σ := { key, options := ⟨4, 1⟩, slots := .empty 1, host }

def defined (key : Nat) (host : σ) : Compiler σ :=
  ((created key host).define "fac" [⟨"n", .value, .any⟩] .uint64 body).2

def compilation (key : Nat) (n : UInt64) : Compilation where
  options := ⟨4, 1⟩
  graph := ⟨#[⟨[.int n], .next ⟨1⟩⟩, ⟨[.callsub ⟨0⟩], .opened⟩, ⟨[.store 0], .next ⟨3⟩⟩, ⟨[.load 0], .next ⟨4⟩⟩,
    ⟨[.int 1], .next ⟨5⟩⟩, ⟨[.le], .branch ⟨6⟩ ⟨8⟩ []⟩, ⟨[.int 1], .next ⟨7⟩⟩, ⟨[], .next ⟨14⟩⟩,
    ⟨[.load 0], .next ⟨9⟩⟩, ⟨[.load 0], .next ⟨10⟩⟩, ⟨[.int 1], .next ⟨11⟩⟩, ⟨[.sub], .next ⟨12⟩⟩,
    ⟨[.callsub ⟨0⟩], .next ⟨13⟩⟩, ⟨[.mul], .next ⟨7⟩⟩, ⟨[.retsub], .terminal⟩]⟩
  main := ⟨⟨0⟩, some ⟨1⟩⟩
  declarations := [⟨handle key, tree key, ⟨⟨2⟩, none⟩, [holder]⟩]

theorem compile_root (key : Nat) (host : σ) (n : UInt64) (limit : Nat) :
    ((Compiler.compile (limit + 1) (root key n)).run.run (defined key host)).map (·.1) =
      some (.ok (compilation key n)) := by
  cases limit <;> cbv

theorem assemble_compilation (key : Nat) (n : UInt64) : (compilation key n).assemble = .ok (program n) := by
  cbv

theorem run_script (key : Nat) (host : σ) (n : UInt64) (limit : Nat) :
    ((script n).run (Compiler.declare limit)).run.run (created key host) = some (.ok (root key n), defined key host) := by
  cbv

/-- Every version that has calls, with any number of slots, comes to the same program. -/
theorem script_yields (key : Nat) (host : σ) (n : UInt64) (limit : Nat) {o : Options} (hversion : 4 ≤ o.version)
    (hvalid : o.validate = .ok ()) :
    (script n).Yields key host (limit + 1) o [root key n, tree key] (program n) := by
  obtain ⟨⟨answer, after⟩, hcompile, hanswer⟩ := Option.map_eq_some_iff.1 (compile_root key host n limit)
  obtain rfl : answer = .ok (compilation key n) := hanswer
  have hcreate : Compiler.create key ⟨4, 1⟩ host = .ok (created key host) := rfl
  have hscript := run_script key host n (limit + 1)
  obtain ⟨habides, hoptions⟩ := Compiler.abides_of_script hcreate hscript
  have havailable := (Compiler.available_of_compile habides hcompile (assemble_compilation key n)).1
  rw [hoptions] at havailable
  have hslots : (1 : UInt64) ≤ o.slotCount := by
    have hne := (Options.validate_eq_ok.1 hvalid).2
    rw [UInt64.le_iff_toNat_le, UInt64.toNat_one]
    exact Nat.pos_of_ne_zero fun h => hne (UInt64.toNat_inj.1 h)
  exact Compiler.yields_of_follows (script_follows n) hcreate hscript hcompile (assemble_compilation key n) hvalid hslots
    False.elim (havailable.mono hversion)

/-! ### The run -/

/-- The program ends, with the factorial as its exit value and alone on the stack. -/
theorem program_ends {m : Machine} (n : UInt64) (hfree : m.steps = none) (hslots : 0 < m.slotCount)
    (hdepth : max n.toNat 1 + 1 ≤ m.callDepth) (hfit : n.toNat + 3 ≤ m.stackSize) :
    ∃ k mem, (m.start (program n)).after m (program n) k = ended (.ok (some (.uint (value n)))) mem ∧
      mem.stack = [.uint (value n)] := by
  have hstart : m.start (program n) = running ⟨⟨main n, 0⟩, [], .blank m.slotCount, 0⟩ :=
    start_eq_running rfl rfl (by omega)
  have hslot : 0 < (Array.replicate m.slotCount (default : Value)).size := by rwa [Array.size_replicate]
  have hpush : m.Takes (program n) ⟨⟨main n, 0⟩, [], .blank m.slotCount, 0⟩
      ⟨⟨main n, 1⟩, [], ⟨[.uint n], Array.replicate m.slotCount default⟩, 0⟩ := .advance hfree (Nat.zero_le _) rfl rfl
  have hcall : m.Takes (program n) ⟨⟨main n, 1⟩, [], ⟨[.uint n], Array.replicate m.slotCount default⟩, 0⟩
      ⟨⟨fac, 0⟩, [⟨main n, 2⟩], ⟨[.uint n], Array.replicate m.slotCount default⟩, 0⟩ :=
    .call hfree (by rw [List.length_singleton]; omega) rfl (subroutine_program n) (by rw [List.length_nil]; omega)
  obtain ⟨scratch, hfactorial⟩ := takes_factorial (n := n) [] ⟨main n, 2⟩ [] hfree (subroutine_program n)
    (by rw [List.length_nil]; omega) (by rw [List.length_nil]; omega) hslot
  obtain ⟨k, steps, hk⟩ := ((hpush.trans hcall).trans hfactorial) 0
  have hfinish := m.step_finish (program n) (e := ⟨⟨main n, 2⟩, [], ⟨[.uint (value n)], scratch⟩, steps⟩) rfl
  refine ⟨k + 1, ⟨[.uint (value n)], scratch⟩, ?_, rfl⟩
  rw [hstart, after_add, hk]
  exact hfinish

/-- With every version that has calls, the subroutine `fac` and a call of it on a literal compile to a program that ends
with the factorial modulo two to the 64th, and with nothing else on the stack, on every machine that has a slot and room
for as many calls and values as the argument says. -/
theorem run_eq_factorial (key : Nat) (host : σ) (limit : Nat) {o : Options} (hversion : 4 ≤ o.version)
    (hvalid : o.validate = .ok ()) (n : UInt64) :
    ∃ p, (script n).Yields key host (limit + 1) o [root key n, tree key] p ∧
      ∀ m : Machine, m.steps = none → 0 < m.slotCount → max n.toNat 1 + 1 ≤ m.callDepth → n.toNat + 3 ≤ m.stackSize →
        ∃ k v mem, v.toNat = n.toNat.factorial % 2 ^ 64 ∧
          (m.start p).after m p k = ended (.ok (some (.uint v))) mem ∧ mem.stack = [.uint v] := by
  refine ⟨program n, script_yields key host n limit hversion hvalid, fun m hfree hslots hdepth hfit => ?_⟩
  obtain ⟨k, mem, hend, hstack⟩ := program_ends n hfree hslots hdepth hfit
  exact ⟨k, value n, mem, toNat_value n, hend, hstack⟩

/-- Just enough room for the argument 21. -/
def tight : Machine := { callDepth := 22, stackSize := 24, slotCount := 1 }

/-- The factorial of 21 is more than the machine can hold. -/
theorem run_eq_factorial_wrapping : Nat.factorial 21 = 2 * 2 ^ 64 + 14197454024290336768 ∧
    ∃ p, (script 21).Yields 0 () 1 ⟨5, 256⟩ [root 0 21, tree 0] p ∧
      ∃ k mem, (tight.start p).after tight p k = ended (.ok (some (.uint 14197454024290336768))) mem ∧
        mem.stack = [.uint 14197454024290336768] := by
  obtain ⟨p, hyields, hruns⟩ := run_eq_factorial 0 () 0 (o := ⟨5, 256⟩) (by decide) rfl 21
  obtain ⟨k, v, mem, hv, hend, hstack⟩ := hruns tight rfl (by decide) (by decide) (by decide)
  have hvalue : v = 14197454024290336768 := UInt64.toNat_inj.1 (hv.trans (by decide))
  rw [hvalue] at hend hstack
  exact ⟨by decide, p, hyields, k, mem, hend, hstack⟩

/-- A machine without slots has room for everything but the argument. -/
def slotless : Machine := { slotCount := 0 }

/-- Without a slot the subroutine cannot begin. -/
theorem run_without_slots : (script 5).Yields 0 () 1 {} [root 0 5, tree 0] (program 5) ∧
    slotless.steps = none ∧ max (5 : UInt64).toNat 1 + 1 ≤ slotless.callDepth ∧ (5 : UInt64).toNat + 3 ≤ slotless.stackSize ∧
    (slotless.start (program 5)).after slotless (program 5) 3 =
      ended (.error ⟨.slotOutOfRange 0 0, ["fac", "main"]⟩) ⟨[], #[]⟩ ∧
    ∀ k v mem, (slotless.start (program 5)).after slotless (program 5) k ≠ ended (.ok (some v)) mem := by
  have hend : (slotless.start (program 5)).after slotless (program 5) 3 =
      ended (.error ⟨.slotOutOfRange 0 0, ["fac", "main"]⟩) ⟨[], #[]⟩ := rfl
  refine ⟨script_yields 0 () 5 0 (by decide) rfl, rfl, by decide, by decide, hend, fun k v mem hk => ?_⟩
  have hlast := after_of_ended hend (Nat.le_max_left 3 k)
  rw [after_of_ended hk (Nat.le_max_right 3 k)] at hlast
  cases hlast

end Factorial

end ScratchMachine
