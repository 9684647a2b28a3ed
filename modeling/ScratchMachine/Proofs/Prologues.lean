import ScratchMachine.Proofs.Courses
import ScratchMachine.Proofs.Enclosure
import ScratchMachine.Proofs.Layout

/-!
# How the code of a subroutine begins

A subroutine first stores its arguments, in blocks of one operation each that control can only go through in their
order.  Such a line of blocks becomes a run of operations at the beginning of the linear code, without jumps.

* `BlockGraph.Line.getElem?_linearize`: a line at the entry is the beginning of the code.
* `BlockGraph.Prefaced`: a line at the entry leads to blocks that control does not leave.
* `Compiler.lower_prologue`: what a subroutine runs begins with a line of stores.
-/

namespace ScratchMachine

open BlockGraph Fallible

/-! ### Lines of blocks -/

namespace BlockGraph

/-- From one block control goes through blocks of one operation each, in the order of their numbers, to another. -/
inductive Line (g : BlockGraph) : BlockId → List Operation → BlockId → Prop
  | here (id : BlockId) : Line g id [] id
  | step {id next last : BlockId} {op : Operation} {ops : List Operation} : g.block? id = some ⟨[op], .next next⟩ →
      id.index < next.index → Line g next ops last → Line g id (op :: ops) last

variable {g g' : BlockGraph} {id next last : BlockId} {op : Operation} {ops : List Operation}

theorem Extends.block?_of_closed (hext : g.Extends g') {b : Block} (hb : g.block? id = some b) (hexit : b.exit ≠ .opened) :
    g'.block? id = some b := by
  obtain ⟨⟨ops', exit'⟩, hb', hops, hexit'⟩ := hext id b hb
  rw [hb']
  congr 1
  obtain ⟨ops, exit⟩ := b
  obtain rfl : ops' = ops := hops
  obtain rfl : exit' = exit := hexit' hexit
  rfl

theorem Line.mono (h : g.Line id ops last) (hext : g.Extends g') : g'.Line id ops last := by
  induction h with
  | here id => exact .here id
  | step hb hlt _ ih => exact .step (hext.block?_of_closed hb (by simp)) hlt ih

theorem Line.snoc (h : g.Line id ops last) (hb : g.block? last = some ⟨[op], .next next⟩)
    (hlt : last.index < next.index) : g.Line id (ops ++ [op]) next := by
  induction h with
  | here id => exact .step hb hlt (.here next)
  | step hb' hlt' _ ih => exact .step hb' hlt' (ih hb hlt)

open Linear

/-- The items of a line come first, without jumps between them, and then those of blocks that control reaches from its
end. -/
theorem Line.place_eq (h : g.Line id ops last) {seen : List BlockId} (hseen : ∀ b ∈ seen, b.index ≤ id.index)
    {l : List (BlockId × Block)} (horder : l.map (·.1) = g.visit [(id, (g.successors id).reverse)] seen [])
    (hblocks : ∀ x ∈ l, g.block? x.1 = some x.2) :
    ∃ l', (place l).flatMap (·.2) = ops.map .op ++ (place l').flatMap (·.2) ∧
      ∀ x ∈ l', g.Reaches last x.1 ∧ g.block? x.1 = some x.2 := by
  induction h generalizing seen l with
  | here id =>
    refine ⟨l, rfl, fun x hx => ⟨?_, hblocks x hx⟩⟩
    have hmem := List.mem_map_of_mem (f := (·.1)) hx
    rw [horder] at hmem
    rcases mem_visit hmem with hdone | ⟨frame, hframe, hreach⟩
    · cases hdone
    obtain rfl := List.mem_singleton.1 hframe
    rcases hreach with heq | ⟨t, ht, hreach⟩
    · rw [heq]
      exact .refl
    · exact hreach.head (List.mem_reverse.1 ht)
  | @step id next last op ops hb hlt _ ih =>
    have hsucc : g.successors id = [next] := by
      rw [successors, hb]
      rfl
    have hnew : next ∉ seen := by
      intro hmem
      have hle := hseen next hmem
      omega
    rw [visit_single hsucc hnew] at horder
    cases l with
    | nil => cases horder
    | cons x l =>
      obtain ⟨id', b⟩ := x
      rw [List.map_cons, List.cons.injEq] at horder
      obtain ⟨rfl, horder⟩ := horder
      obtain rfl := Option.some.inj ((hblocks _ (List.mem_cons_self ..)).symm.trans hb)
      have hseen' : ∀ b ∈ next :: seen, b.index ≤ next.index := by
        intro b hb
        rcases List.mem_cons.1 hb with rfl | hb
        · exact le_refl _
        · exact (hseen b hb).trans hlt.le
      obtain ⟨l', hrest, hreach⟩ := ih hseen' horder fun y hy => hblocks y (List.mem_cons_of_mem _ hy)
      -- the block that control goes to is placed next
      have hhead : l.head?.map (·.1) = some next := by
        rw [← List.head?_map, horder]
        exact head?_visit (.inl rfl)
      refine ⟨l', ?_, hreach⟩
      rw [place, List.flatMap_cons, hhead, hrest]
      simp [exitCode, jumpUnless]

theorem Line.getElem?_linearize (h : g.Line id ops last) {code : List Operation} (hcode : g.linearize id = .ok code)
    {i : Nat} (hop : ops[i]? = some op) : code[i]? = some op := by
  obtain ⟨l, htrace, hres⟩ := except_bind_eq_ok.1 hcode
  obtain ⟨horder, hblocks⟩ := trace_eq htrace
  obtain ⟨l', hrest, -⟩ := h.place_eq (by simp) horder hblocks
  have hlt : i < ops.length := (List.getElem?_eq_some_iff.1 hop).1
  have hitem : ((place l).flatMap (·.2))[i]? = some (.op op) := by
    rw [hrest, List.getElem?_append_left (by simpa using hlt), List.getElem?_map, hop, Option.map_some]
  obtain ⟨op', hop', hresolve⟩ := getElem?_resolveFrom hres hitem
  cases hresolve
  exact hop'

/-- From the entry control goes through a line of operations to blocks that it does not leave, whose operations have a
property. -/
def Prefaced (g : BlockGraph) (entry : BlockId) (ops : List Operation) (P : Operation → Prop) : Prop :=
  ∃ last lo hi, g.Line entry ops last ∧ (lo ≤ last.index ∧ last.index < hi) ∧ hi ≤ g.size ∧ g.Encloses lo hi P

variable {P Q : Operation → Prop}

theorem Prefaced.mono (h : g.Prefaced id ops P) (hgrows : Grows g.size g g') : g'.Prefaced id ops P := by
  obtain ⟨last, lo, hi, hline, hlast, hhi, hencloses⟩ := h
  exact ⟨last, lo, hi, hline.mono hgrows.extends', hlast, hhi.trans hgrows.extends'.size_le, hencloses.grows hgrows hhi⟩

theorem Prefaced.imp (h : g.Prefaced id ops P) (himp : ∀ op, P op → Q op) : g.Prefaced id ops Q := by
  obtain ⟨last, lo, hi, hline, hlast, hhi, hencloses⟩ := h
  exact ⟨last, lo, hi, hline, hlast, hhi, hencloses.imp himp⟩

/-- The code is the line, and then jumps and operations with the property. -/
theorem Prefaced.getElem?_linearize (h : g.Prefaced id ops P) {code : List Operation} (hcode : g.linearize id = .ok code)
    {i : Nat} (hop : code[i]? = some op) : ops[i]? = some op ∨ op.isJump = true ∨ P op := by
  obtain ⟨last, lo, hi, hline, hlast, -, hencloses⟩ := h
  obtain ⟨l, htrace, hres⟩ := except_bind_eq_ok.1 hcode
  obtain ⟨horder, hblocks⟩ := trace_eq htrace
  obtain ⟨l', hrest, hreach⟩ := hline.place_eq (by simp) horder hblocks
  refine or_iff_not_imp_left.2 fun hnot => (getElem?_linear hres hop).imp_right fun hitem => ?_
  rw [hrest, List.getElem?_append, List.getElem?_map] at hitem
  split at hitem
  · obtain ⟨op', hop', heq⟩ := Option.map_eq_some_iff.1 hitem
    cases heq
    exact absurd hop' hnot
  · obtain ⟨x, hx, ho⟩ := mem_of_op_mem_place (List.mem_of_getElem? hitem)
    obtain ⟨hlo, hhi⟩ := hencloses.reaches hlast (hreach x hx).1
    exact (hencloses x.1 x.2 hlo hhi (hreach x hx).2).1 op ho

end BlockGraph

/-! ### Stores -/

namespace Compiler

variable {σ : Type} {c c' : Compiler σ} {own : Operation → Prop}

theorem permits_own {op : Operation} (h : c.Permits own op) : own op ∨ ∃ id, op = .callsub id :=
  h.imp_right fun ⟨id, hid, _⟩ => ⟨id, hid⟩

/-- A node of an operation without arguments becomes a block of its own. -/
theorem lower_leaf (op : Operation) (hop : op.isTerminal = false) (type : ValueType) (returns : Bool) (c : Compiler σ) :
    Ensures (lower (.op op [] type returns)) c
      (fun f c' => Advances c.graph.size c c' ∧ f = ⟨⟨c.graph.size⟩, some ⟨c.graph.size⟩⟩ ∧
        c'.graph.block? ⟨c.graph.size⟩ = some ⟨[op], .opened⟩) fun _ => True := by
  rw [lower, lowerAll]
  refine ensures_bind (ensures_pure ((emit_ensures (le_refl _) (by simp)).imp (fun f c' h => ?_) fun _ _ => trivial))
  obtain ⟨hadvances, happlied, hopen, -⟩ := h
  obtain ⟨entry, exit⟩ := f
  have hentry : entry = ⟨c.graph.size⟩ := happlied.leads
  have hexit := happlied.exit
  rw [hop] at hexit
  obtain rfl : exit = some ⟨c.graph.size⟩ := hexit
  obtain ⟨-, b, hb, hb'⟩ := hopen _ rfl
  obtain ⟨b', hb'', hops, -⟩ := happlied.holds
  obtain rfl := Option.some.inj (hb.symm.trans hb'')
  obtain ⟨ops, bexit⟩ := b
  subst hops hb' hentry
  exact ⟨hadvances, rfl, hb⟩

/-- Linking the last block of a line makes it longer. -/
theorem line_seq {entry x : BlockId} {ops : List Operation} {op : Operation} {next : Fragment}
    (hline : c.graph.Line entry ops x) (hx : c.graph.block? x = some ⟨[op], .opened⟩) (hlt : x.index < next.entry.index) :
    Ensures (onGraph (σ := σ) (BlockGraph.seq ⟨entry, some x⟩ next)) c
      (fun f c' => f = ⟨entry, next.exit⟩ ∧ c'.graph.Line entry (ops ++ [op]) next.entry ∧ c.graph.Extends c'.graph ∧
        ∀ id, id ≠ x → c'.graph.block? id = c.graph.block? id) fun _ => True := by
  have hseq : Ensures (BlockGraph.seq ⟨entry, some x⟩ next) c.graph
      (fun f g' => f = ⟨entry, next.exit⟩ ∧ g'.Line entry (ops ++ [op]) next.entry ∧ c.graph.Extends g' ∧
        ∀ id, id ≠ x → g'.block? id = c.graph.block? id) fun _ => True := by
    refine ensures_bind ((link_ensures next.entry (le_refl x.index)).imp (fun _ g' h => ensures_pure ?_) fun _ _ => trivial)
    obtain ⟨hgrows, ⟨y, hy, -, b, hb, hexit⟩, hother⟩ := h
    cases hy
    obtain ⟨b', hb', hops, -⟩ := hgrows.extends' x _ hx
    obtain rfl := Option.some.inj (hb.symm.trans hb')
    obtain ⟨bops, bexit⟩ := b
    subst hops hexit
    exact ⟨rfl, (hline.mono hgrows.extends').snoc hb hlt, hgrows.extends', hother⟩
  exact (onGraph_ensures hseq).imp (fun _ _ h => h.2) fun _ _ => trivial

/-- Stores that follow a block become a line from it, to the blocks of what comes after them. -/
theorem lowerAfter_stores {entry x : BlockId} {ops : List Operation} {op : Operation} {slots : List UInt64} {tail : Expr}
    (htail : tail.Everywhere (Owns own)) (hline : c.graph.Line entry ops x)
    (hx : c.graph.block? x = some ⟨[op], .opened⟩) :
    Ensures (lowerAfter ⟨entry, some x⟩ (slots.map (fun slot => .ofOp (.store slot) [] .none) ++ [tail])) c
      (fun f c' => f.entry = entry ∧
        c'.graph.Prefaced entry (ops ++ op :: slots.map .store) fun op => own op ∨ ∃ id, op = .callsub id) fun _ => True := by
  have hsize := index_lt_size hx
  induction slots generalizing ops op x c with
  | nil =>
    rw [List.map_nil, List.nil_append, lowerAfter]
    have hlower := (lower_encloses htail c).and (lower_ensures tail c)
    refine ensures_bind (hlower.imp (fun next c₁ h => ?_) fun _ _ => trivial)
    obtain ⟨⟨hencloses, hentry⟩, hlowered⟩ := h
    have hx₁ := (hlowered.advances.grows.keeps x hsize).trans hx
    have hlt : x.index < next.entry.index := Nat.lt_of_lt_of_le hsize hentry.1
    refine ensures_bind ((line_seq (hline.mono hlowered.advances.extends') hx₁ hlt).imp (fun f c₂ h => ?_)
      fun _ _ => trivial)
    obtain ⟨rfl, hline₂, hext, hother⟩ := h
    rw [lowerAfter]
    refine ensures_pure ⟨rfl, next.entry, c.graph.size, c₁.graph.size, hline₂, hentry, hext.size_le, ?_⟩
    intro id b hlo hhi hb
    rw [hother id (by rintro rfl; omega)] at hb
    exact (hencloses.imp fun _ => permits_own) id b hlo hhi hb
  | cons slot slots ih =>
    rw [List.map_cons, List.cons_append, lowerAfter]
    refine ensures_bind ((lower_leaf (.store slot) rfl .none false c).imp (fun next c₁ h => ?_) fun _ _ => trivial)
    obtain ⟨hadvances, rfl, hnext⟩ := h
    have hx₁ := (hadvances.grows.keeps x hsize).trans hx
    refine ensures_bind ((line_seq (hline.mono hadvances.extends') hx₁ hsize).imp (fun f c₂ h => ?_) fun _ _ => trivial)
    obtain ⟨rfl, hline₂, -, hother⟩ := h
    have hnext₂ : c₂.graph.block? ⟨c.graph.size⟩ = some ⟨[.store slot], .opened⟩ := by
      rw [hother _ (by rintro rfl; exact absurd hsize (lt_irrefl _)), hnext]
    have hrest := ih hline₂ hnext₂ (index_lt_size hnext₂)
    rw [List.append_assoc] at hrest
    exact hrest

/-- What a subroutine runs begins with a line of stores. -/
theorem lower_prologue {slots : List UInt64} {tail : Expr} (htail : tail.Everywhere (Owns own)) (c : Compiler σ) :
    Ensures (lower (.seq (slots.map (fun slot => .ofOp (.store slot) [] .none) ++ [tail]))) c
      (fun f c' => c'.graph.Prefaced f.entry (slots.map .store) fun op => own op ∨ ∃ id, op = .callsub id) fun _ => True := by
  cases slots with
  | nil =>
    have hseq : (Expr.seq [tail]).Everywhere (Owns own) := .intro trivial (by simpa [Expr.parts] using htail)
    refine (lower_encloses hseq c).imp (fun f c' h => ?_) fun _ _ => trivial
    exact ⟨f.entry, _, _, .here _, h.2, le_refl _, h.1.imp fun _ => permits_own⟩
  | cons slot slots =>
    rw [List.map_cons, List.cons_append, lower]
    refine ensures_bind (ensures_lift (fun _ _ => ?_) trivial)
    refine ensures_bind ((lower_leaf (.store slot) rfl .none false c).imp (fun f c₁ h => ?_) fun _ _ => trivial)
    obtain ⟨-, rfl, hblock⟩ := h
    refine (lowerAfter_stores htail (.here _) hblock).imp (fun f c₂ h => ?_) fun _ _ => trivial
    obtain ⟨hentry, hprefaced⟩ := h
    rw [hentry]
    exact hprefaced

end Compiler

end ScratchMachine
