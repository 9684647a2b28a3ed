import ScratchMachine.Proofs.Declaring

/-!
# Declarations that are not abandoned

A declaration that fails is abandoned: its subroutine is as undeclared as before, but the subroutines that were declared
on the way stay declared, and they may call it.  Here compiling is repeated in a steady way, which has no answer if that
happens to a subroutine that is not excused.  Where it has an answer, it is the same as that of compiling itself.

* `Compiler.Steady.declare`, `Compiler.Steady.compile`: the steady actions.
* `Compiler.Steady.History`: the compilers that steady requests of a host lead to before it compiles.
* `Compiler.Steady.compile_refines`: what a steady action answers, the action itself answers.
-/

namespace ScratchMachine

open Fallible Declaring

namespace Compiler

variable {σ α β : Type}

/-- The numbers of the subroutines that are declared. -/
def declaredIds (c : Compiler σ) : List SubroutineId := c.declarations.map (·.subroutine.id)

namespace Steady

/-! ### Steady actions -/

/-- Builds a declaration, and has no answer if that fails after others were made on the way, unless the subroutine is
excused. -/
def build (excused : SubroutineId → Bool) (build : Definition σ → Declaring σ Declaration) (d : Definition σ) :
    Declaring σ Declaration := do
  let before := (← get).declaredIds
  match ← attempt (build d) with
  | .ok declaration => return declaration
  | .error e =>
    let after := (← get).declaredIds
    if excused d.handle.id || after == before then throw e
    else tooDeep

/-- Declares a subroutine in the steady way. -/
def declare (excused : SubroutineId → Bool) : (depth : Nat) → Subroutine → Declaring σ Declaration
  | 0, s => declareBy (fun _ => tooDeep) s
  | depth + 1, s => declareBy (build excused (Compiler.build (declare excused depth))) s

/-- Declares the subroutines that wait in the steady way. -/
def declarePending (excused : SubroutineId → Bool) (depth : Nat) : (rounds : Nat) → Declaring σ Unit
  | 0 => do
    match (← get).pending with
    | [] => pure ()
    | _ :: _ => tooDeep
  | rounds + 1 => do
    match (← get).pending with
    | [] => pure ()
    | s :: rest =>
      modify ({ · with pending := rest })
      discard <| declare excused depth s
      declarePending excused depth rounds

/-- Compiles in the steady way. -/
def compile (excused : SubroutineId → Bool) (limit : Nat) (root : Expr) : Declaring σ Compilation := do
  modify ({ · with current := none })
  let main ← perform (lower root)
  declarePending excused limit limit
  let c ← get
  return { options := c.options, graph := c.graph, main, declarations := c.declarations }

/-- The compilers that steady requests of a host lead to before it compiles, whether they are answered or refused. -/
inductive History (excused : SubroutineId → Bool) : Compiler σ → Prop
  | create {key : Nat} {options : Options} {host : σ} {c : Compiler σ} : create key options host = .ok c →
      History excused c
  | newVariable {c : Compiler σ} (type : ValueType) (request : SlotRequest) (target : Option Variable) :
      History excused c → History excused ((newVariable type request target).run.run c).2
  | define {c : Compiler σ} (name : String) (params : List Param) (returns : ValueType) (body : Body σ) :
      History excused c → History excused (c.define name params returns body).2
  | lower {c : Compiler σ} (e : Expr) : History excused c → History excused ((lower e).run.run c).2
  | declare {c c' : Compiler σ} {depth : Nat} {s : Subroutine} {answer : Except CompileError Declaration} :
      History excused c → (declare excused depth s).run.run c = some (answer, c') → History excused c'

/-! ### Refinement -/

/-- Where the first action has an answer, the second has the same. -/
def Refines (x y : Declaring σ α) : Prop := ∀ c r, x.run.run c = some r → y.run.run c = some r

theorem Refines.refl (x : Declaring σ α) : Refines x x := fun _ _ h => h

theorem Refines.trans {x y z : Declaring σ α} (h : Refines x y) (h' : Refines y z) : Refines x z :=
  fun c r hx => h' c r (h c r hx)

theorem Refines.bind {x y : Declaring σ α} {k l : α → Declaring σ β} (h : Refines x y)
    (hk : ∀ a, Refines (k a) (l a)) : Refines (x >>= k) (y >>= l) := by
  intro c r hrun
  rw [Declaring.run_bind] at hrun ⊢
  rcases hx : x.run.run c with _ | ⟨e | a, c'⟩
  · rw [hx] at hrun
    cases hrun
  · rw [hx] at hrun
    rw [h c _ hx]
    exact hrun
  · rw [hx] at hrun
    rw [h c _ hx]
    exact hk a c' r hrun

theorem Refines.attempt {x y : Declaring σ α} (h : Refines x y) : Refines (attempt x) (attempt y) := by
  intro c r hrun
  rw [run_attempt] at hrun ⊢
  obtain ⟨p, hx, rfl⟩ := Option.map_eq_some_iff.1 hrun
  rw [h c p hx, Option.map_some]

theorem run_get (c : Compiler σ) : (get : Declaring σ (Compiler σ)).run.run c = some (.ok c, c) := rfl

theorem build_refines (excused : SubroutineId → Bool) (build : Definition σ → Declaring σ Declaration)
    (d : Definition σ) : Refines (Steady.build excused build d) (build d) := by
  intro c r hrun
  rw [Steady.build, Declaring.run_bind, run_get] at hrun
  dsimp only at hrun
  rw [Declaring.run_bind, run_attempt] at hrun
  rcases hbuild : (build d).run.run c with _ | ⟨e | declaration, c'⟩
  · rw [hbuild] at hrun
    cases hrun
  · -- a failure is passed on, or there is no answer
    rw [hbuild, Option.map_some] at hrun
    dsimp only at hrun
    rw [Declaring.run_bind, run_get] at hrun
    dsimp only at hrun
    split at hrun
    · exact hrun
    · cases hrun
  · rw [hbuild, Option.map_some] at hrun
    exact hrun

theorem run_refines {declare declare' : Subroutine → Declaring σ Declaration}
    (h : ∀ s, Refines (declare s) (declare' s)) (b : Builder σ) : Refines (b.run declare) (b.run declare') := by
  induction b with
  | done body => exact .refl _
  | fail error => exact .refl _
  | newVariable type request target next ih => exact .bind (.refl _) ih
  | define name params returns body next _ ih => exact .bind (.refl _) ih
  | lookup name next ih => exact .bind (.refl _) fun _ => ih _
  | declare sub next ih => exact .bind (h sub).attempt ih
  | lower e next ih => exact .bind (.refl _) ih
  | inspect next ih => exact .bind (.refl _) fun _ => ih _ _
  | getState next ih => exact .bind (.refl _) fun _ => ih _
  | setState state next ih => exact .bind (.refl _) fun _ => ih

theorem declareBy_refines {build build' : Definition σ → Declaring σ Declaration}
    (h : ∀ d, Refines (build d) (build' d)) (s : Subroutine) : Refines (declareBy build s) (declareBy build' s) := by
  refine .bind (.refl _) fun d => ?_
  split
  · exact .refl _
  · exact .refl _
  · exact .bind (.refl _) fun _ => .bind (h d).attempt fun _ => .refl _

/-- Declaring in the steady way is declaring. -/
theorem declare_refines (excused : SubroutineId → Bool) (depth : Nat) (s : Subroutine) :
    Refines (declare (σ := σ) excused depth s) (Compiler.declare depth s) := by
  induction depth generalizing s with
  | zero => exact .refl _
  | succ depth ih =>
    refine declareBy_refines (fun d => (build_refines excused _ d).trans ?_) s
    exact .bind (.refl _) fun params => .bind (run_refines ih _) fun body => .refl _

theorem declarePending_refines (excused : SubroutineId → Bool) (depth rounds : Nat) :
    Refines (declarePending (σ := σ) excused depth rounds) (Compiler.declarePending depth rounds) := by
  induction rounds with
  | zero => exact .refl _
  | succ rounds ih =>
    refine .bind (.refl _) fun c => ?_
    rcases c.pending with _ | ⟨s, rest⟩
    · exact .refl _
    · exact .bind (.refl _) fun _ => .bind (.bind (declare_refines excused depth s) fun _ => .refl _) fun _ => ih

/-- Compiling in the steady way is compiling. -/
theorem compile_refines (excused : SubroutineId → Bool) (limit : Nat) (root : Expr) :
    Refines (compile (σ := σ) excused limit root) (Compiler.compile limit root) :=
  .bind (.refl _) fun _ => .bind (.refl _) fun _ => .bind (declarePending_refines excused limit limit) fun _ => .refl _

theorem History.reachable {excused : SubroutineId → Bool} {c : Compiler σ} (h : History excused c) : c.Reachable := by
  induction h with
  | create hcreate => exact .create hcreate
  | newVariable type request target _ ih => exact .newVariable type request target ih
  | define name params returns body _ ih => exact .define name params returns body ih
  | lower e _ ih => exact .lower e ih
  | declare _ hdeclare ih => exact .declare ih (declare_refines excused _ _ _ _ hdeclare)

end Steady

end Compiler

end ScratchMachine
