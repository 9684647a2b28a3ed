import ScratchMachine.Proofs.SideBySide

/-!
# Lowering in different contexts

Whatever else a compiler has, and wherever the blocks come to stand, comparable compilers make the same code of an
expression, or refuse it for the same reason.

* `Compiler.lower_bare`: the blocks are those that are made where there are none.
* `Compiler.lower_comparable`: comparable compilers make the same code.
* `Compiler.lower_in_context`: the code of an expression does not depend on the context.
-/

namespace ScratchMachine

open Fallible BlockGraph

namespace Compiler

variable {σ τ : Type} {n : Nat} {c : Compiler σ} {c' : Compiler τ}

/-! ### Contexts -/

theorem Comparable.trans {ρ : Type} {c'' : Compiler ρ} (h : c.Comparable c') (h' : c'.Comparable c'') :
    c.Comparable c'' :=
  ⟨h'.version.trans h.version, h'.current.trans h.current, h'.handles.trans h.handles⟩

theorem Comparable.symm (h : c.Comparable c') : c'.Comparable c := ⟨h.version.symm, h.current.symm, h.handles.symm⟩

theorem Advances.comparable {c c' : Compiler σ} (h : Advances n c c') : c.Comparable c' := by
  rw [h.rest]
  exact ⟨rfl, rfl, rfl⟩

theorem advances_enqueue (s : Subroutine) (c : Compiler σ) : Advances 0 c ((enqueue s).run.run c).2 := by
  have h := enqueue_ensures 0 (c := c) (s := s)
  unfold Ensures at h
  rcases hrun : (enqueue s).run.run c with ⟨e | _, c'⟩
  · rw [hrun] at h
    exact h
  · rw [hrun] at h
    exact h.1

/-- Comparable compilers stay comparable. -/
theorem common_comparable : Common (Comparable (σ := σ) (τ := τ)) where
  comparable h := h
  graph _ _ h := ⟨h.version, h.current, h.handles⟩
  waits s _ _ h := ((advances_enqueue s _).comparable.symm.trans h).trans (advances_enqueue s _).comparable

/-- The compiler without any blocks. -/
def bare (c : Compiler σ) : Compiler σ := { c with graph := {} }

/-- Whatever blocks there are already, lowering makes those that it makes where there are none, behind them.  Their linear
code stays the same as long as nothing is done to them. -/
theorem lower_bare {b : Compiler σ} {c : Compiler τ} (h : b.Comparable c) (e : Expr) :
    match (lower e).run.run b.bare with
    | (.ok f, d) => ∃ d', (lower e).run.run c = (.ok (f.shift c.graph.size), d') ∧
        ∀ g, Grows d'.graph.size d'.graph g → g.linearize (f.entry.shift c.graph.size) = d.graph.linearize f.entry
    | (.error error, _) => ∃ d', (lower e).run.run c = (.error error, d') := by
  have hcopies : Copies Comparable id c.graph.size b.bare c :=
    ⟨⟨h.version, h.current, h.handles⟩, endsWith_empty c.graph⟩
  have hend := lower_parallel common_comparable id c.graph.size e b.bare c hcopies
  rw [Expr.renumber_id] at hend
  obtain ⟨hanswer, hd⟩ := hend
  rcases hother : (lower e).run.run c with ⟨answer', d'⟩
  rcases hrun : (lower e).run.run b.bare with ⟨answer, d⟩
  rw [hrun, hother] at hanswer hd
  cases hanswer with
  | @error error error' herror =>
    have hlinks := linksWell_lower e b.bare error d hrun
    exact ⟨d', by rw [herror.2 rfl hlinks]⟩
  | @ok made made' hmade =>
    obtain rfl := hmade
    obtain ⟨hencloses, hentry⟩ := (lower_encloses (everywhere_owns e) b.bare).of_ok hrun
    have hwhole : d.graph.Whole := by
      intro id block hblock t ht
      have htarget := (hencloses id block (Nat.zero_le _) (index_lt_size hblock) hblock).2 t ht
      exact Option.isSome_iff_exists.1 (block?_isSome.2 htarget.2)
    have hstart : ∃ block, d.graph.block? made.entry = some block :=
      Option.isSome_iff_exists.1 (block?_isSome.2 hentry.2)
    exact ⟨d', rfl, fun g hg => (hd.graph.relocates.grows hg).linearize_eq hwhole hstart⟩

/-- Comparable compilers refuse an expression for the same reason, or make the same code of it. -/
theorem lower_comparable (h : c.Comparable c') (e : Expr) :
    (∃ f d f' d', (lower e).run.run c = (.ok f, d) ∧ (lower e).run.run c' = (.ok f', d') ∧
      ∀ g g', Grows d.graph.size d.graph g → Grows d'.graph.size d'.graph g' →
        g'.linearize f'.entry = g.linearize f.entry) ∨
      ∃ error d d', (lower e).run.run c = (.error error, d) ∧ (lower e).run.run c' = (.error error, d') := by
  -- each of them is compared with the one that has no blocks
  have hself := lower_bare (b := c) (c := c) ⟨rfl, rfl, rfl⟩ e
  have hother := lower_bare h e
  rcases hrun : (lower e).run.run c.bare with ⟨error | f, d⟩
  · rw [hrun] at hself hother
    obtain ⟨d₁, hrun₁⟩ := hself
    obtain ⟨d₂, hrun₂⟩ := hother
    exact .inr ⟨error, d₁, d₂, hrun₁, hrun₂⟩
  · rw [hrun] at hself hother
    obtain ⟨d₁, hrun₁, hcode₁⟩ := hself
    obtain ⟨d₂, hrun₂, hcode₂⟩ := hother
    exact .inl ⟨_, d₁, _, d₂, hrun₁, hrun₂, fun g g' hg hg' => (hcode₂ g' hg').trans (hcode₁ g hg).symm⟩

/-! ### Lowering twice -/

/-- An expression was lowered, or refused. -/
def Lowers (c c' : Compiler σ) : Prop := ∃ e answer, (lower e).run.run c = (answer, c')

/-- Lowering does nothing to blocks that are there. -/
theorem advances_of_lowers {c c' : Compiler σ} (h : Relation.ReflTransGen Lowers c c') : Advances c.graph.size c c' := by
  induction h with
  | refl => exact .refl _ c
  | tail _ hstep ih =>
    obtain ⟨e, answer, hrun⟩ := hstep
    exact ih.andThen (Moment.advances_lower hrun) (le_refl _)

/-- Control does not leave the blocks that were made, until one of them is linked to others. -/
theorem reaches_of_lower {c c₁ : Compiler σ} {e : Expr} {f : Fragment} (h : (lower e).run.run c = (.ok f, c₁))
    {g : BlockGraph} (hg : Grows c₁.graph.size c₁.graph g) {id : BlockId} (hid : g.Reaches f.entry id) :
    c.graph.size ≤ id.index ∧ id.index < c₁.graph.size := by
  obtain ⟨hencloses, hentry⟩ := (lower_encloses (everywhere_owns e) c).of_ok h
  exact (hencloses.grows hg (le_refl _)).reaches hentry hid

/-- An expression that was lowered once is lowered again, to other blocks with the same code. -/
theorem lower_again {c c₁ c₂ : Compiler σ} {e : Expr} {f₁ : Fragment} (hfirst : (lower e).run.run c = (.ok f₁, c₁))
    (hcomparable : c₁.Comparable c₂) (hextends : c₁.graph.Extends c₂.graph) :
    ∃ f₂ c₃, (lower e).run.run c₂ = (.ok f₂, c₃) ∧ ∀ g, Grows c₁.graph.size c₁.graph g →
      c₃.graph.linearize f₂.entry = g.linearize f₁.entry ∧
      ∀ id, g.Reaches f₁.entry id → ¬ c₃.graph.Reaches f₂.entry id := by
  have hmade := Moment.advances_lower hfirst
  rcases lower_comparable (hmade.comparable.trans hcomparable) e with
    ⟨f, d, f₂, c₃, hrun, hsecond, hcode⟩ | ⟨error, d, d', hrun, -⟩
  · obtain ⟨rfl, rfl⟩ : f₁ = f ∧ c₁ = d := by
      rw [hfirst] at hrun
      cases hrun
      exact ⟨rfl, rfl⟩
    refine ⟨f₂, c₃, hsecond, fun g hg => ⟨hcode g c₃.graph hg (.refl _ _), ?_⟩⟩
    intro id hid hid'
    have hbefore := reaches_of_lower hfirst hg hid
    have hafter := reaches_of_lower hsecond (.refl _ _) hid'
    have hsize := hextends.size_le
    omega
  · rw [hfirst] at hrun
    cases hrun

/-- The code of an expression does not depend on what else there is: on the blocks, the slots, the declarations made so
far and the subroutines that wait.  Lowered a second time, it becomes other blocks with the code that it had the first
time, whatever has been linked since, and with the code that it still has if expressions have only been lowered since. -/
theorem lower_in_context (h : c.Comparable c') (e : Expr) :
    ((∃ f d f' d', (lower e).run.run c = (.ok f, d) ∧ (lower e).run.run c' = (.ok f', d') ∧
        d'.graph.linearize f'.entry = d.graph.linearize f.entry) ∨
      ∃ error d d', (lower e).run.run c = (.error error, d) ∧ (lower e).run.run c' = (.error error, d')) ∧
    ∀ f₁ c₁, (lower e).run.run c = (.ok f₁, c₁) →
      (∀ c₂ : Compiler σ, c₁.Comparable c₂ → c₁.graph.Extends c₂.graph →
        ∃ f₂ c₃, (lower e).run.run c₂ = (.ok f₂, c₃) ∧
          c₃.graph.linearize f₂.entry = c₁.graph.linearize f₁.entry ∧
          ∀ id, c₁.graph.Reaches f₁.entry id → ¬ c₃.graph.Reaches f₂.entry id) ∧
      ∀ c₂, Relation.ReflTransGen Lowers c₁ c₂ →
        ∃ f₂ c₃, (lower e).run.run c₂ = (.ok f₂, c₃) ∧
          c₃.graph.linearize f₂.entry = c₃.graph.linearize f₁.entry ∧
          ∀ id, c₃.graph.Reaches f₁.entry id → ¬ c₃.graph.Reaches f₂.entry id := by
  constructor
  · rcases lower_comparable h e with ⟨f, d, f', d', hrun, hrun', hcode⟩ | ⟨error, d, d', hrun, hrun'⟩
    · exact .inl ⟨f, d, f', d', hrun, hrun', hcode _ _ (.refl _ _) (.refl _ _)⟩
    · exact .inr ⟨error, d, d', hrun, hrun'⟩
  intro f₁ c₁ hfirst
  constructor
  · intro c₂ hcomparable hextends
    obtain ⟨f₂, c₃, hsecond, hall⟩ := lower_again hfirst hcomparable hextends
    exact ⟨f₂, c₃, hsecond, hall c₁.graph (.refl _ _)⟩
  · intro c₂ hlowers
    have hbetween := advances_of_lowers hlowers
    obtain ⟨f₂, c₃, hsecond, hall⟩ := lower_again hfirst hbetween.comparable hbetween.extends'
    have hkept := (hbetween.andThen (Moment.advances_lower hsecond) (le_refl _)).grows
    exact ⟨f₂, c₃, hsecond, hall c₃.graph hkept⟩

namespace Shared

def handle : Subroutine := ⟨0, ⟨0⟩, "seven", [], .uint64⟩

/-- A conditional that calls a subroutine. -/
def shared : Expr := .ifElse (.int 1) (.call handle []) (.int 2)

/-- Nothing has been made yet. -/
def fresh : Compiler Unit where
  key := 0
  options := {}
  slots := .empty 256
  definitions := [{ handle, body := fun _ _ => .done (.int 7) }]
  host := ()

/-- There are blocks already, and the subroutine has its declaration. -/
def busy : Compiler String where
  key := 0
  options := { slotCount := 3 }
  slots := { capacity := 3, next := 1, pooled := [0] }
  graph := ⟨#[⟨[.int 7], .next ⟨1⟩⟩, ⟨[.retsub], .terminal⟩]⟩
  definitions := [{ handle, body := fun _ _ => .done (.int 7), status := .declared ⟨handle, .int 7, ⟨⟨0⟩, none⟩, []⟩ }]
  host := "busy"

/-- The expression was lowered. -/
def once : Compiler Unit where
  key := 0
  options := {}
  slots := .empty 256
  graph := ⟨#[⟨[.int 1], .branch ⟨1⟩ ⟨3⟩ []⟩, ⟨[.callsub ⟨0⟩], .next ⟨2⟩⟩, ⟨[], .opened⟩, ⟨[.int 2], .next ⟨2⟩⟩]⟩
  definitions := [{ handle, body := fun _ _ => .done (.int 7) }]
  pending := [handle]
  host := ()

/-- Another expression was lowered. -/
def next : Compiler Unit := { once with graph := ⟨once.graph.blocks.push ⟨[.int 9], .opened⟩⟩ }

/-- The other expression was made to follow. -/
def linked : Compiler Unit := { next with graph := next.graph.withExit ⟨2⟩ (.next ⟨4⟩) }

def code : List Operation := [.int 1, .jumpIfFalse 3, .callsub ⟨0⟩, .jump 2, .int 2]

theorem lower_fresh : (lower shared).run.run fresh = (.ok ⟨⟨0⟩, some ⟨2⟩⟩, once) := by
  cbv

theorem linearize_once : once.graph.linearize ⟨0⟩ = .ok code := by
  cbv

theorem lowers_next : once.Lowers next := ⟨.int 9, .ok ⟨⟨4⟩, some ⟨4⟩⟩, by rw [lower]; rfl⟩

theorem extends_linked : once.graph.Extends linked.graph := by
  have hblock : next.graph.block? ⟨2⟩ = some ⟨[], .opened⟩ := rfl
  have hlinked := BlockGraph.grows_withExit (.next ⟨4⟩) hblock rfl (Nat.zero_le _)
  exact (BlockGraph.grows_push once.graph ⟨[.int 9], .opened⟩).extends'.trans hlinked.extends'

end Shared

open Shared in
/-- The code is the same behind the blocks of another compiler, and behind the first blocks of the same one, be these
linked to others or not. -/
theorem lower_in_context_shared :
    fresh.Comparable busy ∧ ((lower shared).run.run busy).1 = .ok ⟨⟨2⟩, some ⟨4⟩⟩ ∧
      ((lower shared).run.run busy).2.graph.linearize ⟨2⟩ = .ok code ∧
      (∃ f c, (lower shared).run.run linked = (.ok f, c) ∧ c.graph.linearize f.entry = .ok code ∧
        ∀ id, once.graph.Reaches ⟨0⟩ id → ¬ c.graph.Reaches f.entry id) ∧
      ∃ f c, (lower shared).run.run next = (.ok f, c) ∧ c.graph.linearize f.entry = c.graph.linearize ⟨0⟩ ∧
        ∀ id, c.graph.Reaches ⟨0⟩ id → ¬ c.graph.Reaches f.entry id := by
  have hcomparable : fresh.Comparable busy := ⟨rfl, rfl, rfl⟩
  have hbusy : ((lower shared).run.run busy).1 = .ok ⟨⟨2⟩, some ⟨4⟩⟩ := by cbv
  obtain ⟨hplaces, htwice⟩ := lower_in_context hcomparable shared
  obtain ⟨hlinked, hlowered⟩ := htwice _ once lower_fresh
  have hagain := hlinked linked ⟨rfl, rfl, rfl⟩ extends_linked
  rw [linearize_once] at hagain
  refine ⟨hcomparable, hbusy, ?_, hagain, hlowered next (.single lowers_next)⟩
  rcases hplaces with ⟨f, d, f', d', hrun, hrun', hcode⟩ | ⟨error, d, d', hrun, -⟩
  · rw [lower_fresh] at hrun
    cases hrun
    rw [hrun'] at hbusy ⊢
    cases hbusy
    exact hcode.trans linearize_once
  · rw [lower_fresh] at hrun
    cases hrun

end Compiler

end ScratchMachine
