import ScratchMachine.Proofs.DeadCode
import ScratchMachine.Proofs.Precedence

/-!
# Jumps of compiled code

The fragments of a compilation have no cycles, so the layout places every block before those that it leads to, and a
jump from one block to another goes forward.  Unless the trees themselves have jumps, there are no others.

* `BlockGraph.Linear.lt_position`: the target of an item lies behind it.
* `BlockGraph.OneWay.forward`: the linear code of a fragment goes forward only.
* `Compiler.forward_of_compile`: the code of compiled programs goes forward only.
-/

namespace ScratchMachine

open BlockGraph Fallible Declaring

/-! ### Forward jumps -/

/-- If the operation jumps, then to a later one, and it does not pick one of several targets. -/
structure Operation.Forward (op : Operation) : Prop where
  offset_pos : ∀ offset ∈ op.offsets, 1 ≤ offset.toInt
  not_switch : ∀ offsets, op ≠ .switch offsets

/-- All jumps of the code go forward. -/
def CodeObject.Forward (code : CodeObject) : Prop := ∀ op ∈ code.ops, op.Forward

theorem Operation.forward_of_not_isJump {op : Operation} (h : op.isJump = false) : op.Forward := by
  cases op with
  | jump offset | jumpIfFalse offset | switch offsets => cases h
  | _ => exact ⟨by simp [offsets], by simp⟩

namespace BlockGraph

variable {g g' : BlockGraph} {entry : BlockId}

/-- Control that enters the block goes from block to block without coming back, and by nothing but their exits. -/
def OneWay (g : BlockGraph) (entry : BlockId) : Prop :=
  g.Unrolls (fun _ b => ∀ op ∈ b.ops, op.isJump = false) entry

/-- Blocks that are added do not matter. -/
theorem OneWay.grows (h : g.OneWay entry) (hgrows : Grows g.size g g') : g'.OneWay entry := by
  induction h with
  | @intro id b hb hplain _ ih =>
    have hb' : g'.block? id = some b := by rw [hgrows.keeps id (index_lt_size hb), hb]
    exact .intro hb' hplain ih

namespace Linear

theorem target_of_exitCode {following : Option BlockId} {exit : Exit} {item : Item} (h : item ∈ exitCode following exit)
    {t : Target} (ht : t ∈ item.targets) : t = .finish ∨ ∃ id ∈ exit.targets, t = .block id := by
  have hjump : ∀ target ∈ exit.targets, item ∈ jumpUnless following target →
      t = .finish ∨ ∃ id ∈ exit.targets, t = .block id := by
    intro target htarget hitem
    unfold jumpUnless at hitem
    split at hitem
    · cases hitem
    · obtain rfl := List.mem_singleton.1 hitem
      exact .inr ⟨target, htarget, List.mem_singleton.1 ht⟩
  unfold exitCode at h
  split at h
  · split at h
    · obtain rfl := List.mem_singleton.1 h
      exact .inl (List.mem_singleton.1 ht)
    · cases h
  · exact hjump _ (by simp [Exit.targets]) h
  · rename_i first second
    rcases List.mem_cons.1 h with rfl | h
    · exact .inr ⟨second, by simp [Exit.targets], List.mem_singleton.1 ht⟩
    · exact hjump first (by simp [Exit.targets]) h
  · rename_i first second other others
    rcases List.mem_cons.1 h with rfl | h
    · obtain ⟨id, hid, rfl⟩ := List.mem_map.1 ht
      have hmem : id = first ∨ id = second ∨ id ∈ other :: others := by
        simp only [List.mem_cons] at hid
        rcases hid with hid | hid | hid
        · exact .inl hid
        · exact .inr (.inl hid)
        · exact .inr (.inr (List.mem_of_mem_dropLast hid))
      exact .inr ⟨id, by simpa [Exit.targets] using hmem, rfl⟩
    · have hlast : (other :: others).getLast (by simp) ∈ other :: others := List.getLast_mem _
      apply hjump _ _ h
      simp only [Exit.targets, List.mem_cons] at hlast ⊢
      exact .inr (.inr hlast)
  · cases h

/-- If blocks stand before all that they lead to, then the targets of an item lie behind it. -/
theorem lt_position {l : List (BlockId × Block)} (hnodup : (l.map (·.1)).Nodup)
    (hahead : ∀ before x after, l = before ++ x :: after → ∀ t ∈ x.2.exit.targets, t ∈ after.map (·.1))
    {i : Nat} {item : Item} (hitem : ((place l).flatMap (·.2))[i]? = some item) {t : Target} (ht : t ∈ item.targets) :
    i < t.position (place l) ∧ ∀ id, t = .block id → id ∈ l.map (·.1) := by
  induction l generalizing i with
  | nil => cases hitem
  | cons x l ih =>
    obtain ⟨id, b⟩ := x
    obtain ⟨hid, hnodup⟩ := List.nodup_cons.1 hnodup
    -- behind the first block, a target that is placed later lies behind the code of that block
    have hlater : ∀ t : Target, (∀ id', t = .block id' → id' ∈ l.map (·.1)) →
        t.position (place ((id, b) :: l)) =
          (b.ops.map Item.op ++ exitCode (l.head?.map (·.1)) b.exit).length + t.position (place l) := by
      intro t hmem
      rw [place]
      cases t with
      | finish => rw [Target.position, Target.position, List.flatMap_cons, List.length_append]
      | block id' =>
        have hne : id ≠ id' := by
          rintro rfl
          exact hid (hmem id rfl)
        rw [Target.position, Target.position, startOf, if_neg hne]
    have hmore : ∀ id', t = .block id' → id' ∈ l.map (·.1) → id' ∈ ((id, b) :: l).map (·.1) :=
      fun id' _ hid' => List.mem_cons_of_mem _ hid'
    rw [place, List.flatMap_cons] at hitem
    dsimp only at hitem
    by_cases hi : i < (b.ops.map Item.op ++ exitCode (l.head?.map (·.1)) b.exit).length
    · rw [List.getElem?_append_left hi] at hitem
      have htarget : ∀ id', t = .block id' → id' ∈ l.map (·.1) := by
        rintro id' rfl
        rcases List.mem_append.1 (List.mem_of_getElem? hitem) with hop | hexit
        · obtain ⟨o, -, rfl⟩ := List.mem_map.1 hop
          cases ht
        · rcases target_of_exitCode hexit ht with hfinish | ⟨id'', hid'', heq⟩
          · cases hfinish
          · cases heq
            exact hahead [] (id, b) l rfl id' hid''
      rw [hlater t htarget]
      exact ⟨by omega, fun id' heq => hmore id' heq (htarget id' heq)⟩
    · rw [List.getElem?_append_right (by omega)] at hitem
      have hahead' : ∀ before x after, l = before ++ x :: after → ∀ t ∈ x.2.exit.targets, t ∈ after.map (·.1) :=
        fun before x after hl => hahead ((id, b) :: before) x after (by rw [hl, List.cons_append])
      obtain ⟨hlt, htarget⟩ := ih hnodup hahead' hitem
      rw [hlater t htarget]
      exact ⟨by omega, fun id' heq => hmore id' heq (htarget id' heq)⟩

end Linear

open Linear

/-- The linear code of a fragment without cycles goes forward only. -/
theorem OneWay.forward (h : g.OneWay entry) (hnarrow : g.Narrow) {ops : List Operation}
    (hops : g.linearize entry = .ok ops) : ∀ op ∈ ops, op.Forward := by
  obtain ⟨l, htrace, hres⟩ := except_bind_eq_ok.1 hops
  obtain ⟨horder, hblocks⟩ := trace_eq htrace
  have hnodup : (l.map (·.1)).Nodup := horder ▸ order_nodup g entry
  have hahead : ∀ before x after, l = before ++ x :: after → ∀ t ∈ x.2.exit.targets, t ∈ after.map (·.1) := by
    intro before x after hl t ht
    have horder' : g.order entry = before.map (·.1) ++ x.1 :: after.map (·.1) := by rw [← horder, hl]; simp
    have hblock := hblocks x (by rw [hl]; simp)
    exact mem_after_of_edge h.acyclicFrom horder' ((mem_successors_iff hblock).2 ht)
  intro op hop
  obtain ⟨i, hi⟩ := List.getElem?_of_mem hop
  have hlt : i < ((place l).flatMap (·.2)).length := by
    rw [← length_resolveFrom hres]
    exact (List.getElem?_eq_some_iff.1 hi).1
  obtain ⟨item, hitem⟩ : ∃ item, ((place l).flatMap (·.2))[i]? = some item := ⟨_, List.getElem?_eq_getElem hlt⟩
  obtain ⟨op', hop', hresolve⟩ := getElem?_resolveFrom hres hitem
  obtain rfl := Option.some.inj (hi.symm.trans hop')
  rw [Nat.zero_add] at hresolve
  have hpos : ∀ t ∈ item.targets, ∀ o, offset i (t.position (place l)) = .ok o → 1 ≤ o.toInt := by
    intro t ht o ho
    have hbehind := (lt_position hnodup hahead hitem ht).1
    have hsum := offset_eq_ok ho
    omega
  rcases item_of_place (fun x hx => hnarrow x.1 x.2 (hblocks x hx)) (List.mem_of_getElem? hitem) with
    ⟨t, rfl | rfl⟩ | ⟨x, hx, own, hown, rfl⟩
  · obtain ⟨o, ho, hresolve⟩ := except_bind_eq_ok.1 hresolve
    cases hresolve
    exact ⟨by simpa [Operation.offsets] using hpos t (List.mem_singleton.2 rfl) o ho, by simp⟩
  · obtain ⟨o, ho, hresolve⟩ := except_bind_eq_ok.1 hresolve
    cases hresolve
    exact ⟨by simpa [Operation.offsets] using hpos t (List.mem_singleton.2 rfl) o ho, by simp⟩
  · cases hresolve
    have hreach := (mem_trace htrace hx).1
    obtain ⟨b, hb, hplain⟩ := (h.reached hreach).holds
    obtain rfl := Option.some.inj (hb.symm.trans (hblocks x hx))
    exact Operation.forward_of_not_isJump (hplain op hown)

end BlockGraph

/-! ### Trees without jumps -/

/-- An operation node states rightly whether control gets past it, and its operation does not jump. -/
def Expr.Straight : Expr → Prop
  | .op o _ _ returns => returns = o.isTerminal ∧ o.isJump = false
  | _ => True

namespace Expr

theorem Straight.candid {e : Expr} (h : e.Straight) : e.Candid := by
  cases e with
  | op o args type returns => exact h.1
  | _ => trivial

theorem Straight.owns {e : Expr} (h : e.Straight) : Compiler.Owns (fun op => op.isJump = false) e := by
  cases e with
  | op o args type returns => exact h.2
  | int n => exact rfl
  | bytes b => exact rfl
  | ret value => exact ⟨rfl, rfl⟩
  | retNothing => exact ⟨rfl, rfl⟩
  | seq items => trivial
  | ifThen cond body => trivial
  | ifElse cond yes no => trivial
  | call callee args => trivial

end Expr

namespace Compiler

variable {σ : Type} {c c' : Compiler σ} {s : Subroutine} {root : Expr} {limit : Nat} {compilation : Compilation}
  {p : Program}

/-- Lowering a tree without jumps makes a fragment that control goes through one way. -/
theorem oneWay_of_lower {e : Expr} (he : e.Everywhere Expr.Straight) {f : Fragment}
    (h : (lower e).run.run c = (.ok f, c')) : c'.graph.OneWay f.entry := by
  have hlowered := (lower_ensures e c).of_ok h
  have hspans := hlowered.spans (he.imp fun _ => Expr.Straight.candid) _ (.refl _)
  have hunrolls := hspans.unrolls fun x hx => (hlowered.isOpen x hx).2
  obtain ⟨hencloses, -⟩ := (lower_encloses (he.imp fun _ => Expr.Straight.owns) c).of_ok h
  apply hunrolls.imp
  intro id b hb hmember op hop
  rcases (hencloses id b hmember.1.1 hmember.1.2 hb).1 op hop with hown | ⟨callee, rfl, -⟩
  · exact hown
  · rfl

end Compiler

/-- Control goes one way through the fragment of a declaration, if its body has no jumps. -/
def Declaration.OneWay (decl : Declaration) (g : BlockGraph) : Prop :=
  decl.body.Everywhere Expr.Straight → g.OneWay decl.fragment.entry

namespace Compiler

variable {σ : Type} {c c' : Compiler σ} {root : Expr} {limit : Nat} {compilation : Compilation} {p : Program}

theorem enduring_oneWay : Enduring fun c c' : Compiler σ =>
    c.Keeps c' ∧ ∀ decl ∈ c'.declarations, decl.OneWay c'.graph := by
  apply enduring_of_built
  · intro decl g g' h hgrows hbody
    exact (h hbody).grows hgrows
  · intro d c c' decl hbuilt hbody
    obtain ⟨params, c₁, c₂, c₃, code, -, -, -, -, hcode, hlower, rfl⟩ := hbuilt
    have hreturn : (withReturn decl.subroutine decl.body).Everywhere Expr.Straight :=
      everywhere_withReturn hbody (fun _ => trivial) (fun _ => trivial) trivial
    have hstraight := everywhere_prologue hcode hreturn (fun _ => trivial) fun _ => ⟨rfl, rfl⟩
    have honeWay := oneWay_of_lower hstraight hlower
    exact honeWay

/-- In a compilation of trees without jumps control goes one way through all fragments. -/
theorem oneWay_of_compile (hc : c.Reachable) (hcompile : (compile limit root).run.run c = some (.ok compilation, c'))
    (hroot : root.Everywhere Expr.Straight)
    (hbodies : ∀ decl ∈ compilation.declarations, decl.body.Everywhere Expr.Straight) :
    ∀ f ∈ compilation.fragments, compilation.graph.OneWay f.entry := by
  obtain ⟨⟨lowered, hlower, hgrows⟩, hdecls⟩ :=
    built_of_compile enduring_oneWay hc.sound (built_of_reachable enduring_oneWay hc) hcompile
  intro f hf
  rcases List.mem_cons.1 hf with rfl | hf
  · exact (oneWay_of_lower hroot hlower).grows hgrows
  · obtain ⟨decl, hdecl, rfl⟩ := List.mem_map.1 hf
    exact hdecls decl hdecl (hbodies decl hdecl)

/-- The code of a program that was compiled from trees without jumps goes forward only. -/
theorem forward_of_compile (hc : c.Reachable) (hcompile : (compile limit root).run.run c = some (.ok compilation, c'))
    (hassemble : compilation.assemble = .ok p) (hroot : root.Everywhere Expr.Straight)
    (hbodies : ∀ decl ∈ compilation.declarations, decl.body.Everywhere Expr.Straight) :
    ∀ object ∈ p.code, object.Forward := by
  have hnarrow : compilation.graph.Narrow := by
    rw [((compile_state limit root c).of_ok hcompile).1]
    exact ((safe_compile enduring_abides limit root).holds hc.abides hcompile).narrow
  intro object hobject op hop
  obtain ⟨f, hf, hlinear⟩ := (Compilation.layouts_of_assemble hassemble).1 object hobject
  have honeWay := oneWay_of_compile hc hcompile hroot hbodies f hf
  exact honeWay.forward hnarrow hlinear op (Array.mem_toList_iff.2 hop)

end Compiler

end ScratchMachine
