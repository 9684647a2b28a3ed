import Mathlib.Data.List.Nodup
import Mathlib.Logic.Relation
import ScratchMachine.Proofs.Assembly
import ScratchMachine.Proofs.Builders

/-!
# What a call does to the stack of its caller

A call takes its arguments off the stack and leaves in their place as many values as its subroutine returns, unless
the subroutine returns where the values of operands are still to be used: these stay on the stack too.

* `Compilation.leaves`: how many values the calls of a compilation can leave.
* `Compiler.call_comes_back`: what is on the stack when a call comes back.
-/

namespace ScratchMachine

open Behaviour BlockGraph Effect ScratchMachine.Expr

/-! ### Receiving arguments -/

variable {calls : Calls} {counts : Counts} {flow : Flow}

theorem Variable.confined_receiveAll (vs : List Variable) (hflow : flow.goesOn = true) :
    (Variable.receiveAll vs).Confined flow vs.length fun n => flow = .done ∧ n = 0 := by
  induction vs generalizing flow with
  | nil => exact confined_skip fun hdone => ⟨hdone, rfl⟩
  | cons v vs ih =>
    have hreceive : ∀ flow : Flow, flow.goesOn = true →
        v.receive.Confined flow (vs.length + 1) fun n => flow = .done ∧ n = vs.length := by
      intro flow hflow
      unfold Variable.receive
      split
      · rename_i slot _
        have heffect := (confined_pop vs.length).bind fun x => confined_writeSlot slot x vs.length
        exact confined_perform heffect (fun _ _ _ _ => confined_skip fun hdone => ⟨hdone, rfl⟩)
          fun _ hends => Flow.elim_of_goesOn hends hflow
      · exact .of_not fun _ _ => id
    rw [receiveAll]
    refine (hreceive .done rfl).andThen (fun hne => ?_) fun n hn => ?_
    · exact (hreceive flow hflow).imp fun n hn => absurd hn.1 hne
    · rw [hn.2]
      exact ih hflow

theorem Behaviour.confined_asCall {b : Behaviour} {k : Nat} {p : Nat → Prop} (h : b.Confined .leave k p)
    (hflow : flow.goesOn = true) (name : String) : (asCall name b).Confined flow k fun n => flow = .done ∧ p n := by
  rintro us below scratch stack scratch' hus ⟨g, hb, rfl⟩
  cases g with
  | done => cases hflow
  | leave =>
    obtain ⟨vs, hvs, hstack, hother⟩ := h hus hb
    exact ⟨vs, ⟨rfl, hvs⟩, hstack, fun other => ⟨.leave, hother other, rfl⟩⟩
  | halt v => cases hflow
  | fault error => cases hflow

/-! ### Declared subroutines -/

namespace Declaration

variable {defined : Subroutine → Prop} {d : Declaration}

theorem PassedFor.body (h : d.PassedFor defined) : d.body.Everywhere (·.Checked (some d.subroutine) defined) ∧
    (d.body.alwaysReturns = false → d.body.type.size = d.subroutine.returns.size) := by
  obtain ⟨-, h⟩ := h
  unfold Compiler.withReturn at h
  split at h
  · rename_i hreturns
    exact ⟨h, by simp [hreturns]⟩
  · split at h
    · rename_i hnone
      refine ⟨h.part (q := d.body) (by simp [parts]), fun _ => ?_⟩
      have htype := @type_of_checkItems [d.body] [] _ _ h.here d.body (by simp)
      rw [htype, hnone]
    · exact ⟨h.part (q := d.body) (by simp [parts]), fun _ => size_of_checkReturn h.here⟩

/-- Control can leave a declared subroutine with this many values in place of its arguments: inside the body, or past
its end. -/
def Leaves (counts : Counts) (d : Declaration) (n : Nat) : Prop :=
  d.body.Leaves counts .leave n ∨ d.body.Leaves counts .done n

theorem size_le (hd : d.PassedFor defined) (hbuilt : d.body.Built)
    (hcounts : ∀ s, defined s → ∀ n, counts s.id n → s.returns.size ≤ n) {n : Nat} (h : d.Leaves counts n) :
    d.subroutine.returns.size ≤ n := by
  obtain ⟨hchecked, htype⟩ := hd.body
  have horderly := hbuilt.orderly hchecked
  rcases h with hleave | hdone
  · exact hleave.size_returns_le horderly hcounts
  · rw [← htype (hdone.not_alwaysReturns horderly)]
    exact hdone.size_le horderly hcounts

/-- No type in the body says too little, and no return in it leaves operands behind. -/
def Tidy (d : Declaration) : Prop := d.body.Honest ∧ ∀ k, d.body.Returns k → k = 0

theorem Tidy.eq_size (h : d.Tidy) (hd : d.PassedFor defined) (hbuilt : d.body.Built)
    (hcounts : ∀ s, defined s → (∃ args, (Expr.call s args).Within d.body) → ∀ n, counts s.id n → n = s.returns.size)
    {n : Nat} (hleaves : d.Leaves counts n) : n = d.subroutine.returns.size := by
  obtain ⟨hchecked, htype⟩ := hd.body
  -- of the subroutines that are defined only those matter that the body calls
  have hcalled : d.body.Everywhere
      (·.Checked (some d.subroutine) fun s => defined s ∧ ∃ args, (Expr.call s args).Within d.body) := by
    refine hchecked.of_within fun q hq hwithin => ?_
    cases q with
    | call callee args => exact ⟨hq.1, hq.2, args, hwithin⟩
    | _ => exact hq
  have horderly := hbuilt.orderly hcalled
  have hcounts := fun s (hs : defined s ∧ ∃ args, (Expr.call s args).Within d.body) => hcounts s hs.1 hs.2
  rcases hleaves with hleave | hdone
  · obtain ⟨k, hk, rfl⟩ := leaves_leave_eq horderly h.1 hcounts hleave
    rw [h.2 k hk, Nat.zero_add]
  · rw [exact_of_honest h.1 horderly hcounts n hdone]
    exact htype (hdone.not_alwaysReturns horderly)

/-- A declared subroutine takes its arguments off the stack and nothing else. -/
theorem confined_behaviour (hd : d.PassedFor defined) (hbuilt : d.body.Built)
    (hcalls : ∀ s, defined s → Lawful calls counts s) :
    (d.behaviour calls).Confined .leave d.subroutine.arity (d.Leaves counts) := by
  have horderly := hbuilt.orderly hd.body.1
  have hreceive : ∀ flow : Flow, flow.goesOn = true → (Variable.receiveAll d.holders.reverse).Confined flow
      d.subroutine.arity fun n => flow = .done ∧ n = 0 := by
    intro flow hflow
    have h := Variable.confined_receiveAll d.holders.reverse hflow
    rwa [List.length_reverse, hd.1] at h
  refine (hreceive .done rfl).andThen (fun _ => ?_) fun n hn => ?_
  · exact (hreceive .leave rfl).imp fun n hn => by cases hn.1
  · rw [hn.2]
    refine Confined.andThen (p := d.body.Leaves counts .done) (Expr.confined_behaviour horderly hcalls rfl)
      (fun _ => ?_) fun n hn => confined_exit fun _ => .inr hn
    exact (Expr.confined_behaviour horderly hcalls rfl).imp fun n hn => .inl hn

end Declaration

/-! ### The calls of a compilation -/

namespace Compilation

/-- How many values calls can leave, as far as they nest at most to a depth. -/
def leavesWithin (c : Compilation) : Nat → Counts
  | 0, _, _ => False
  | depth + 1, id, n => ∃ d ∈ c.declarations, d.subroutine.id = id ∧ d.Leaves (c.leavesWithin depth) n

/-- How many values calls can leave. -/
def leaves (c : Compilation) : Counts := fun id n => ∃ depth, c.leavesWithin depth id n

/-- The body of one declared subroutine calls the other. -/
def Invokes (c : Compilation) (d d' : Declaration) : Prop :=
  d' ∈ c.declarations ∧ ∃ callee args, (Expr.call callee args).Within d.body ∧ d'.subroutine.id = callee.id

/-- The subroutine is the only one of its number that is declared. -/
def Knows (c : Compilation) (s : Subroutine) : Prop := ∀ d ∈ c.declarations, d.subroutine.id = s.id → d.subroutine = s

end Compilation

namespace Compiler

section Compiled

variable {root : Expr} {compilation : Compilation}

theorem Compiled.lawful_callsWithin (h : Compiled root compilation)
    (hbuilt : ∀ d ∈ compilation.declarations, d.body.Built) (depth : Nat) {s : Subroutine} (hs : compilation.Knows s) :
    Lawful (compilation.callsWithin depth) (compilation.leavesWithin depth) s := by
  induction depth generalizing s with
  | zero => exact ⟨fun n hn => hn.elim, fun flow _ => .of_not fun _ _ => id⟩
  | succ depth ih =>
    refine ⟨fun n hn => ?_, fun flow hflow => ?_⟩
    · obtain ⟨d, hd, hid, hleaves⟩ := hn
      rw [← hs d hd hid]
      exact d.size_le (h.passed d hd) (hbuilt d hd) (fun s hs => (ih hs).size_le) hleaves
    · rw [Compilation.callsWithin]
      cases hfind : compilation.declaration? s.id with
      | none =>
        refine .of_not fun m m' hm => ?_
        rw [hm.1] at hflow
        cases hflow
      | some d =>
        have hd := List.mem_of_find?_eq_some hfind
        have hid : d.subroutine.id = s.id := by simpa using List.find?_some hfind
        have hconfined := Declaration.confined_behaviour (h.passed d hd) (hbuilt d hd) fun s hs => ih hs
        rw [hs d hd hid] at hconfined
        refine (confined_asCall hconfined hflow d.subroutine.name).imp fun n hn => ⟨hn.1, d, hd, hid, hn.2⟩

/-- A call takes its arguments off the stack and nothing else, and leaves a number of values that is counted. -/
theorem Compiled.confined_calls (h : Compiled root compilation)
    (hbuilt : ∀ d ∈ compilation.declarations, d.body.Built) {s : Subroutine} (hs : compilation.Knows s) :
    (compilation.calls s.id).Confined .done s.arity (compilation.leaves s.id) := by
  rintro us below scratch stack scratch' hus ⟨depth, hcall⟩
  obtain ⟨vs, ⟨-, hvs⟩, hstack, hother⟩ := (h.lawful_callsWithin hbuilt depth hs).confined .done rfl hus hcall
  exact ⟨vs, ⟨depth, hvs⟩, hstack, fun other => ⟨depth, hother other⟩⟩

/-- If a subroutine and all that come to be called from it are tidy, then its calls leave what it returns. -/
theorem Compiled.leaves_eq (h : Compiled root compilation) (hbuilt : ∀ d ∈ compilation.declarations, d.body.Built)
    {d : Declaration} (hd : d ∈ compilation.declarations)
    (htidy : ∀ d', Relation.ReflTransGen compilation.Invokes d d' → d'.Tidy) {n : Nat}
    (hleaves : compilation.leaves d.subroutine.id n) : n = d.subroutine.returns.size := by
  obtain ⟨depth, hleaves⟩ := hleaves
  induction depth generalizing d n with
  | zero => exact hleaves.elim
  | succ depth ih =>
    obtain ⟨d', hd', hid, hleaves⟩ := hleaves
    obtain rfl : d' = d := List.inj_on_of_nodup_map h.nodup_ids hd' hd hid
    refine (htidy d' .refl).eq_size (h.passed d' hd) (hbuilt d' hd) (fun s hs hcalled n hn => ?_) hleaves
    -- the callee is declared, or else its call leaves nothing
    have hdeclared : ∃ callee ∈ compilation.declarations, callee.subroutine = s := by
      cases depth with
      | zero => exact hn.elim
      | succ depth =>
        obtain ⟨callee, hcallee, hid, -⟩ := hn
        exact ⟨callee, hcallee, hs callee hcallee hid⟩
    obtain ⟨callee, hcallee, rfl⟩ := hdeclared
    obtain ⟨args, hwithin⟩ := hcalled
    refine ih hcallee (fun d'' hreaches => htidy d'' (.head ?_ hreaches)) hn
    exact ⟨hcallee, callee.subroutine, args, hwithin, rfl⟩

variable {σ : Type} {p : Program}

/-- Whenever a call of a declared subroutine comes back, the caller goes on, and on its stack there are as many values
as are counted in place of the arguments, above just what was below them.  If the subroutine and all that come to be
called from it are tidy, then there are as many as it returns. -/
theorem call_comes_back {c c' : Compiler σ} (hc : c.Reachable) {limit : Nat}
    (hcompile : (compile limit root).run.run c = some (.ok compilation, c'))
    (hbuilt : ∀ d ∈ compilation.declarations, d.body.Built) (hassemble : compilation.assemble = .ok p) (m : Machine)
    {d : Declaration} (hd : d ∈ compilation.declarations) {e e' : Execution} {n : Nat}
    (hop : e.current.code.ops[e.current.position]? = some (.callsub d.subroutine.id)) {args below : List Value}
    (hargs : args.length = d.subroutine.arity) (hstack : e.memory.stack = args ++ below)
    (hback : e.ComesBack m p n e') :
    e'.frames = e.advance.frames ∧ ∃ vs, e'.memory.stack = vs ++ below ∧
      compilation.leaves d.subroutine.id vs.length ∧
      ((∀ d', Relation.ReflTransGen compilation.Invokes d d' → d'.Tidy) → vs.length = d.subroutine.returns.size) := by
  have hcompiled := (compile_ensures hc.sound limit root).of_ok hcompile
  have hregular := fun d hd => Expr.regular_of_fitsStack (hbuilt d hd).fitsStack
  obtain ⟨hcall, hframes⟩ := hback.calls hop
  rw [hcompiled.calls_eq hregular hassemble] at hcall
  have hknows : compilation.Knows d.subroutine := by
    intro d' hd' hid
    rw [List.inj_on_of_nodup_map hcompiled.nodup_ids hd' hd hid]
  obtain ⟨⟨stack, scratch⟩, hmemory⟩ : ∃ mem, e.memory = mem := ⟨_, rfl⟩
  obtain ⟨⟨stack', scratch'⟩, hmemory'⟩ : ∃ mem, e'.memory = mem := ⟨_, rfl⟩
  rw [hmemory] at hstack
  dsimp only at hstack
  rw [hmemory, hmemory', hstack] at hcall
  obtain ⟨vs, hvs, hstack', -⟩ := hcompiled.confined_calls hbuilt hknows hargs hcall
  refine ⟨hframes, vs, by rw [hmemory', hstack'], hvs, fun htidy => hcompiled.leaves_eq hbuilt hd htidy hvs⟩

end Compiled

/-! ### A subroutine that returns too early -/

namespace Early

/-- The sum of a number and of a value that is not always there: the first arm returns instead. -/
def sum : Expr := .add (.int 1) (.ifElse (.int 1) (.ret (.int 5)) (.int 2))

def body : Body Unit := fun _ _ => .done sum

/-- The subroutine. -/
def handle : Subroutine := ⟨0, ⟨0⟩, "early", [], .uint64⟩

def compiler : Compiler Unit :=
  (define { key := 0, options := {}, slots := .empty 256, host := () } "early" [] .uint64 body).2

def root : Expr := .call handle []

def declaration : Declaration := ⟨handle, sum, ⟨⟨1⟩, none⟩, []⟩

def compilation : Compilation where
  options := {}
  graph := ⟨#[⟨[.callsub ⟨0⟩], .opened⟩, ⟨[.int 1], .next ⟨2⟩⟩, ⟨[.int 1], .branch ⟨3⟩ ⟨6⟩ []⟩, ⟨[.int 5], .next ⟨4⟩⟩,
    ⟨[.retsub], .terminal⟩, ⟨[], .next ⟨7⟩⟩, ⟨[.int 2], .next ⟨5⟩⟩, ⟨[.add], .next ⟨8⟩⟩, ⟨[.retsub], .terminal⟩]⟩
  main := ⟨⟨0⟩, some ⟨0⟩⟩
  declarations := [declaration]

def program : Program where
  code := [⟨"main", #[.callsub ⟨0⟩]⟩,
    ⟨"early", #[.int 1, .int 1, .jumpIfFalse 3, .int 5, .retsub, .int 2, .add, .retsub]⟩]
  subroutines := .ofList [(⟨0⟩, 1)]

/-- A run that is about to call the subroutine. -/
def calling : Execution := ⟨⟨⟨"main", #[.callsub ⟨0⟩]⟩, 0⟩, [], ⟨[.uint 7], #[]⟩, 0⟩

/-- The run when the call has come back: the first operand of the sum is still there. -/
def called : Execution := ⟨⟨⟨"main", #[.callsub ⟨0⟩]⟩, 1⟩, [], ⟨[.uint 5, .uint 1, .uint 7], #[]⟩, 6⟩

theorem compile_root : (compile 2 root).run.run compiler = some (.ok compilation, { compiler with
    graph := compilation.graph, definitions := [⟨handle, body, .declared declaration⟩] }) := by
  cbv

theorem assemble_compilation : compilation.assemble = .ok program := by
  cbv

theorem calling_comesBack : calling.ComesBack {} program 5 called := by
  refine ⟨by cbv, Nat.le_refl 0, fun k hk => ?_⟩
  have hcases : k = 0 ∨ k = 1 ∨ k = 2 ∨ k = 3 ∨ k = 4 := by omega
  rcases hcases with rfl | rfl | rfl | rfl | rfl <;> cbv

end Early

open Early in
/-- The subroutine returns a value, and its call leaves two. -/
theorem call_comes_back_early : compilation.leaves handle.id 2 ∧ handle.returns.size = 1 := by
  have hcreate : create 0 {} () = .ok (⟨0, {}, .empty 256, {}, [], [], none, ()⟩ : Compiler Unit) := rfl
  have hreachable : compiler.Reachable := .define "early" [] .uint64 body (.create hcreate)
  have hbuilt : ∀ d ∈ compilation.declarations, d.body.Built := by
    intro d hd
    obtain rfl := List.mem_singleton.1 hd
    exact .binary (by decide) (.int 1) (by decide) (.ifElse (.int 1) (by decide) (.ret (.int 5)) (.int 2)) (by decide)
  have hargs : calling.memory.stack = [] ++ [.uint 7] := rfl
  obtain ⟨-, vs, hstack, hleaves, -⟩ := call_comes_back hreachable compile_root hbuilt assemble_compilation {}
    (List.mem_singleton.2 rfl) (e := calling) rfl rfl hargs calling_comesBack
  have hvs : vs = [.uint 5, .uint 1] := by
    have happend : [.uint 5, .uint 1] ++ [.uint 7] = vs ++ [Value.uint 7] := hstack
    exact (List.append_cancel_right happend).symm
  rw [hvs] at hleaves
  exact ⟨hleaves, rfl⟩

end Compiler

end ScratchMachine
