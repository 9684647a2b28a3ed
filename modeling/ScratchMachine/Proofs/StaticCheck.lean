import ScratchMachine.Proofs.Builders
import ScratchMachine.Proofs.Declaring
import ScratchMachine.Proofs.Weights

/-!
# The static check accepts compiled programs

The layout puts every block after all that lead to it.  So the scan finds at each block as many values as its operations
take: an arm that was moved behind the rest of the program may be scanned at less than the height that it runs at, but
not at too little.

* `BlockGraph.passes_place`: from block to block, the scan gets past the code of a fragment.
* `Compiler.static_check_accepts`: the static check never refuses a compiled and assembled program.
-/

namespace ScratchMachine

open BlockGraph Fallible

/-! ### The scan of whole programs -/

namespace BlockGraph

variable {g : BlockGraph} {lo hi n : Nat} {f : Fragment} {entry last : BlockId} {before after : List BlockId}

/-- While the scan is inside of a block, all that leads to the blocks scanned so far has been scanned. -/
theorem front_of_order (hacyclic : g.AcyclicFrom entry) (horder : g.order entry = before ++ last :: after)
    (hcalls : ∀ id ∈ before, ∀ b, g.block? id = some b → Operation.NoCalls b.ops) :
    g.Front entry (before ++ [last]) before :=
  ⟨List.subset_append_left _ _, hcalls, fun _ _ hid hedge htarget => mem_of_edge hacyclic horder hid hedge htarget⟩

/-- The same when the scan has got past the block. -/
theorem Front.finish (h : g.Front entry (before ++ [last]) before)
    (hlast : ∀ b, g.block? last = some b → Operation.NoCalls b.ops) :
    g.Front entry (before ++ [last]) (before ++ [last]) := by
  refine ⟨List.Subset.refl _, fun id hid => ?_, fun id target hreach hedge htarget =>
    List.mem_append_left _ (h.closed id target hreach hedge htarget)⟩
  rcases List.mem_append.1 hid with hid | hid
  · exact h.noCalls id hid
  · exact List.mem_singleton.1 hid ▸ hlast

/-- If its end is open, a fragment never takes the scan below zero. -/
theorem height_nonneg (hcarries : f.Carries g lo hi n) (hopen : ∀ x, f.exit = some x → g.IsOpen x)
    {begun ended : List BlockId} (hfront : g.Front f.entry begun ended) : 0 ≤ g.height begun ended lo hi := by
  have hdue := hcarries.due_le f.entry begun ended hfront .refl
  cases hexit : f.exit with
  | none =>
    rw [hexit] at hdue
    exact hdue
  | some x =>
    obtain ⟨b, hb, hb'⟩ := hopen x hexit
    have htoll : g.toll x = 0 := by
      rw [toll, hb]
      dsimp only
      rw [hb']
      rfl
    rw [hexit, due, htoll] at hdue
    split at hdue <;> omega

section Scan

variable (hcarries : f.Carries g lo hi n) (hopen : ∀ x, f.exit = some x → g.IsOpen x)
  (hwithin : ∀ id, g.Reaches f.entry id → lo ≤ id.index ∧ id.index < hi) (hacyclic : g.AcyclicFrom f.entry)
  {l : List (BlockId × Block)} (htrace : g.trace f.entry = .ok l)

include hcarries hopen hwithin hacyclic htrace

/-- From any block on, the scan gets past the code that is left. -/
theorem passes_place (scanned rest : List (BlockId × Block)) (hl : l = scanned ++ rest)
    (hcalls : ∀ x ∈ scanned, Operation.NoCalls x.2.ops) :
    Linear.Passes (g.height (scanned.map (·.1)) (scanned.map (·.1)) lo hi).toNat
      ((Linear.place rest).flatMap (·.2)) := by
  induction rest generalizing scanned with
  | nil => trivial
  | cons x rest ih =>
    obtain ⟨id, b⟩ := x
    obtain ⟨hmap, hblock⟩ := trace_eq htrace
    have horder : g.order f.entry = scanned.map (·.1) ++ id :: rest.map (·.1) := by
      rw [← hmap, hl, List.map_append, List.map_cons]
    have hb : g.block? id = some b := hblock (id, b) (by rw [hl]; simp)
    have hid : id ∉ scanned.map (·.1) := fun hmem =>
      (List.nodup_append.1 (horder ▸ order_nodup g f.entry)).2.2 id hmem id (List.mem_cons_self ..) rfl
    obtain ⟨hlo, hhi⟩ := hwithin id (mem_order_iff.1 (by rw [horder]; simp))
    have hcalls' : ∀ id ∈ scanned.map (·.1), ∀ b, g.block? id = some b → Operation.NoCalls b.ops := by
      intro id hid b hb
      obtain ⟨y, hy, rfl⟩ := List.mem_map.1 hid
      have hb' := hblock y (by rw [hl]; exact List.mem_append_left _ hy)
      obtain rfl := Option.some.inj (hb'.symm.trans hb)
      exact hcalls y hy
    have hfront := front_of_order hacyclic horder hcalls'
    have hbegun := height_nonneg hcarries hopen hfront
    have htaken : g.taken id = Operation.takenBy b.ops := by rw [taken, hb]
    have hleft : g.left id - g.toll id = Operation.leftBy b.ops - b.exit.toll := by rw [left, toll, hb]
    rw [height, tally_concat g.taken hid hlo hhi, htaken] at hbegun
    rw [Linear.place, List.flatMap_cons]
    refine Linear.passes_block (by unfold height; omega) (fun hops => ?_) _
    have hended := height_nonneg hcarries hopen
      (hfront.finish fun b' hb' => Option.some.inj (hb.symm.trans hb') ▸ hops)
    have hpasses := ih (scanned ++ [(id, b)]) (by rw [hl, List.append_assoc]; rfl) fun y hy => by
      rcases List.mem_append.1 hy with hy | hy
      · exact hcalls y hy
      · exact List.mem_singleton.1 hy ▸ hops
    rw [List.map_append, List.map_cons, List.map_nil] at hpasses
    rw [height, tally_concat g.taken hid hlo hhi, tally_concat _ hid hlo hhi, htaken, hleft] at hended hpasses
    refine ⟨by unfold height; omega, ?_⟩
    have hheight : (g.height (scanned.map (·.1)) (scanned.map (·.1)) lo hi).toNat - Operation.takenBy b.ops +
        Operation.leftBy b.ops - b.exit.toll =
          (tally (fun id => g.left id - g.toll id) (scanned.map (·.1)) lo hi +
            (Operation.leftBy b.ops - b.exit.toll) -
              (tally g.taken (scanned.map (·.1)) lo hi + Operation.takenBy b.ops)).toNat := by
      unfold height
      omega
    rwa [hheight]

end Scan

/-- The static check accepts the code of a fragment that carries any number of values. -/
theorem checkHeight_linearize (hcarries : f.Carries g lo hi n) (hopen : ∀ x, f.exit = some x → g.IsOpen x)
    (hunrolls : g.Unrolls (fun id _ => lo ≤ id.index ∧ id.index < hi) f.entry) {ops : List Operation}
    (h : g.linearize f.entry = .ok ops) : checkHeight 0 ops = .ok () := by
  obtain ⟨l, htrace, hres⟩ := except_bind_eq_ok.1 h
  refine Linear.checkHeight_eq_ok hres ?_
  have hwithin : ∀ id, g.Reaches f.entry id → lo ≤ id.index ∧ id.index < hi := fun id hid => by
    obtain ⟨-, -, hwithin⟩ := (hunrolls.reached hid).holds
    exact hwithin
  have hpasses := passes_place hcarries hopen hwithin hunrolls.acyclicFrom htrace [] l rfl (by simp)
  rwa [List.map_nil, height, tally_nil, tally_nil, sub_zero, Int.toNat_zero] at hpasses

end BlockGraph

namespace Compiler

section Compiled

variable {σ : Type} {c c' : Compiler σ} {root : Expr} {compilation : Compilation} {p : Program}

/-- The static check accepts the code of a lowered tree, in whatever graph its blocks are kept. -/
theorem checkHeight_of_lower {e : Expr} {f : Fragment} (hfits : e.Everywhere Expr.FitsStack)
    (hlower : (lower e).run.run c = (.ok f, c')) {g : BlockGraph} (hgrows : Grows c'.graph.size c'.graph g)
    {ops : List Operation} (h : g.linearize f.entry = .ok ops) : checkHeight 0 ops = .ok () := by
  have horderly := Expr.orderly_of_fitsStack hfits ((lower_checks e c).of_ok hlower)
  have hrendered := (lower_renders e c).of_ok hlower
  have hrenders := hrendered.renders g ((hgrows.resumes _).imp (le_refl _) fun _ _ _ hends => hends.elim)
  have hopen : ∀ x, f.exit = some x → g.IsOpen x := by
    intro x hx
    obtain ⟨b, hb, hexit⟩ := (hrendered.isOpen x hx).2
    exact ⟨b, (hgrows.keeps x (index_lt_size hb)).trans hb, hexit⟩
  have hspans := hrendered.spans (candid_of_orderly horderly) g hgrows.extends'
  exact checkHeight_linearize (hrenders.carries horderly) hopen ((hspans.unrolls hopen).imp fun _ _ _ h => h.1) h

/-- The main program of a compilation was lowered, and its blocks have been kept. -/
theorem compile_main (hc : c.Sound) (limit : Nat) (root : Expr) :
    Declaring.Ensures (compile limit root) c
      (fun compilation _ => ∃ c₁, (lower root).run.run { c with current := none } = (.ok compilation.main, c₁) ∧
        Grows c₁.graph.size c₁.graph compilation.graph) fun _ => True := by
  unfold compile
  refine Declaring.ensures_bind (Declaring.ensures_modify ?_)
  have hkeeps₁ : c.Keeps { c with current := none } := hc.keeps_of_eq rfl rfl
  refine Declaring.ensures_bind (Declaring.ensures_perform (((ensures_run _ _).and (lower_ensures root _)).imp
    (fun main c₁ h => ?_) fun _ _ => trivial))
  obtain ⟨hlower, hmain⟩ := h
  have hkeeps₂ := hkeeps₁.1.keeps_of_advances hmain.advances
  refine Declaring.ensures_bind ((safe_declarePending enduring_keeps limit limit c₁ hkeeps₂.1.keeps).imp
    (fun _ c₂ h₂ => ?_) fun _ _ => trivial)
  exact Declaring.ensures_bind (Declaring.ensures_get (Declaring.ensures_pure ⟨c₁, hlower, h₂.2.grows⟩))

/-- The static check accepts the main code object of every compiled and assembled program, although it scans the code
as it is laid out and follows no jump. -/
theorem static_check_accepts (hc : c.Reachable) {limit : Nat}
    (hcompile : (compile limit root).run.run c = some (.ok compilation, c')) (hbuilt : root.Built)
    (hassemble : compilation.assemble = .ok p) :
    ∃ main, p.main? = some main ∧ checkHeight 0 main.ops.toList = .ok () := by
  obtain ⟨c₁, hlower, hgrows⟩ := (compile_main hc.sound limit root).of_ok hcompile
  obtain ⟨ops, hops, hassemble⟩ := except_bind_eq_ok.1 hassemble
  obtain ⟨subs, -, hassemble⟩ := except_bind_eq_ok.1 hassemble
  cases hassemble
  exact ⟨_, rfl, checkHeight_of_lower hbuilt.fitsStack hlower hgrows hops⟩

end Compiled

/-! ### An arm behind the rest of the program -/

namespace Moved

/-- A sum of which the second operand may return instead; the sum is discarded. -/
def root : Expr := .pop (.add (.int 1) (.ifElse (.int 1) (.int 2) (.ret (.int 3))))

def compiler : Compiler Unit := { key := 0, options := {}, slots := .empty 256, host := () }

def compilation : Compilation where
  options := {}
  graph := ⟨#[⟨[.int 1], .next ⟨1⟩⟩, ⟨[.int 1], .branch ⟨2⟩ ⟨4⟩ []⟩, ⟨[.int 2], .next ⟨3⟩⟩, ⟨[], .next ⟨6⟩⟩,
    ⟨[.int 3], .next ⟨5⟩⟩, ⟨[.ret], .terminal⟩, ⟨[.add], .next ⟨7⟩⟩, ⟨[.pop], .opened⟩]⟩
  main := ⟨⟨0⟩, some ⟨7⟩⟩
  declarations := []

/-- The returning arm comes last.  It runs above the first operand of the sum, but the scan comes to it with an empty
stack. -/
def program : Program where
  code := [⟨"main", #[.int 1, .int 1, .jumpIfFalse 5, .int 2, .add, .pop, .jump 3, .int 3, .ret]⟩]
  subroutines := .ofList []

theorem compile_root : (compile 1 root).run.run compiler =
    some (.ok compilation, { compiler with graph := compilation.graph }) := by
  cbv

theorem assemble_compilation : compilation.assemble = .ok program := by
  cbv

end Moved

open Moved in
/-- The static check accepts a program of which an arm was moved behind the rest. -/
theorem static_check_accepts_moved : ∃ main, program.main? = some main ∧ checkHeight 0 main.ops.toList = .ok () := by
  have hcreate : create 0 {} () = .ok compiler := rfl
  have hbuilt : root.Built := by
    refine .pop (.binary (by decide) (.int 1) (by decide) ?_ (by decide)) (by decide)
    exact .ifElse (.int 1) (by decide) (.int 2) (.ret (.int 3))
  exact static_check_accepts (.create hcreate) compile_root hbuilt assemble_compilation

end Compiler

end ScratchMachine
