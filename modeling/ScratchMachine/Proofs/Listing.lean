import Mathlib.Data.Set.Insert
import ScratchMachine.Proofs.Linking
import ScratchMachine.Proofs.Outlines
import ScratchMachine.Proofs.Search

/-!
# What the search lists of a part of the graph

The blocks that a search completes beyond some targets depend on those that it has met.  Of a part of the graph, blocks
with numbers from one bound to another, it lists what an outline says, whatever comes after the part, if it comes to the
part for the first time.

* `BlockGraph.Explores`: the blocks that a search completes beyond some targets.
* `BlockGraph.Lists`: a part of the graph is listed as an outline says.
* `BlockGraph.Lists.andThen`, `BlockGraph.Lists.either`, `BlockGraph.Lists.optional`: the ways of linking.
* `BlockGraph.Lists.flatten`: the operations of a whole fragment.
-/

namespace ScratchMachine

/-! ### What a search completes -/

namespace BlockGraph

/-- A search that has met some blocks goes through targets, and completes the blocks that are listed, the last one
first. -/
inductive Explores (g : BlockGraph) : Set BlockId → List BlockId → List BlockId → Prop
  | nil {seen : Set BlockId} : Explores g seen [] []
  | skip {seen : Set BlockId} {target : BlockId} {targets listed : List BlockId} : target ∈ seen →
      Explores g seen targets listed → Explores g seen (target :: targets) listed
  | enter {seen : Set BlockId} {target : BlockId} {targets inner listed : List BlockId} : target ∉ seen →
      Explores g (insert target seen) (g.successors target).reverse inner →
      Explores g (seen ∪ {id | id ∈ target :: inner}) targets listed →
      Explores g seen (target :: targets) (listed ++ target :: inner)

section Exploring

variable {g : BlockGraph} {seen : Set BlockId} {targets targets' listed listed' : List BlockId} {entry : BlockId}

theorem Explores.visit (h : g.Explores seen targets listed) (met : List BlockId) (hmet : ∀ id, id ∈ met ↔ id ∈ seen) :
    ∃ met', (∀ id, id ∈ met' ↔ id ∈ seen ∨ id ∈ listed) ∧ ∀ id rest done,
      g.visit ((id, targets) :: rest) met done = g.visit rest met' (id :: (listed ++ done)) := by
  induction h generalizing met with
  | nil => exact ⟨met, fun id => by simp [hmet], fun id rest done => by rw [BlockGraph.visit, List.nil_append]⟩
  | @skip seen target targets listed hseen _ ih =>
    obtain ⟨met', hmet', hvisit⟩ := ih met hmet
    refine ⟨met', hmet', fun id rest done => ?_⟩
    rw [BlockGraph.visit, if_pos (by simpa using (hmet target).2 hseen), hvisit]
  | @enter seen target targets inner listed hseen _ _ ihinner ihlisted =>
    obtain ⟨met₁, hmet₁, hvisit₁⟩ := ihinner (target :: met) fun id => by simp [hmet]
    obtain ⟨met₂, hmet₂, hvisit₂⟩ := ihlisted met₁ fun id => by simp [hmet₁]; tauto
    refine ⟨met₂, fun id => ?_, fun id rest done => ?_⟩
    · simp only [hmet₂, Set.mem_union, Set.mem_ofPred_eq, List.mem_append]
      tauto
    · have hcontains : ¬ met.contains target = true := by simpa [hmet] using hseen
      rw [BlockGraph.visit, if_neg hcontains, hvisit₁, hvisit₂]
      simp

theorem order_of_explores (h : g.Explores ∅ [entry] listed) : g.order entry = listed := by
  cases h with
  | skip hseen => exact hseen.elim
  | enter _ hinner hnil =>
    cases hnil
    obtain ⟨met, -, hvisit⟩ := hinner.visit [entry] fun id => by simp
    rw [order, hvisit, visit]
    simp

/-- What is completed later is listed earlier. -/
theorem Explores.append (h : g.Explores seen targets listed)
    (h' : g.Explores (seen ∪ {id | id ∈ listed}) targets' listed') :
    g.Explores seen (targets ++ targets') (listed' ++ listed) := by
  induction h generalizing listed' with
  | nil => simpa using h'
  | skip hseen _ ih => exact .skip hseen (ih h')
  | @enter seen target targets inner listed hseen hinner _ _ ih =>
    rw [← List.append_assoc]
    refine .enter hseen hinner (ih ?_)
    have hmet : (seen ∪ {id | id ∈ target :: inner}) ∪ {id | id ∈ listed} =
        seen ∪ {id | id ∈ listed ++ target :: inner} := by
      ext id
      simp only [Set.mem_union, Set.mem_ofPred_eq, List.mem_append]
      tauto
    rwa [hmet]

end Exploring

/-! ### Parts of a graph -/

/-- Blocks with numbers from `lo` to below `hi`, with the operations that they have in order. -/
inductive Spells (g : BlockGraph) (lo hi : Nat) : List BlockId → List Operation → Prop
  | nil : Spells g lo hi [] []
  | cons {id : BlockId} {b : Block} {ids : List BlockId} {ops : List Operation} : g.block? id = some b →
      lo ≤ id.index ∧ id.index < hi → Spells g lo hi ids ops → Spells g lo hi (id :: ids) (b.ops ++ ops)

/-- No block of a set has a number from `lo` to below `hi`. -/
def Apart (lo hi : Nat) (seen : Set BlockId) : Prop := ∀ id ∈ seen, ¬ (lo ≤ id.index ∧ id.index < hi)

/-- Of the blocks other than those with numbers from `lo` to below `hi`, two sets have the same. -/
def AlikeBeyond (lo hi : Nat) (seen seen' : Set BlockId) : Prop :=
  ∀ id : BlockId, ¬ (lo ≤ id.index ∧ id.index < hi) → (id ∈ seen' ↔ id ∈ seen)

/-- A search that has met some blocks goes through targets, whichever blocks with numbers from `lo` to below `hi` it has
met as well. -/
def ExploresBeyond (g : BlockGraph) (lo hi : Nat) (seen : Set BlockId) (targets listed : List BlockId) : Prop :=
  ∀ seen', AlikeBeyond lo hi seen seen' → g.Explores seen' targets listed

/-- What a search lists when it goes through targets to blocks with numbers from `lo` to below `hi`, and through the end
`exit` of these to what comes after them. -/
def Lists (g : BlockGraph) (lo hi : Nat) (targets : List BlockId) (exit : Option BlockId) : Outline → Prop
  | .ended ops => ∃ ids, g.Spells lo hi ids ops ∧ ∀ seen, Apart lo hi seen → g.Explores seen targets ids
  | .onward before after => ∃ x ids ids', exit = some x ∧ g.Spells lo hi ids before ∧ g.Spells lo hi ids' after ∧
      ∀ seen later, Apart lo hi seen → Apart lo hi {id | id ∈ later} →
        g.ExploresBeyond lo hi seen (g.successors x).reverse later → g.Explores seen targets (ids ++ later ++ ids')

section Parts

variable {g : BlockGraph} {lo mid hi lo' hi' : Nat} {ids ids' targets targets' later : List BlockId}
  {ops ops' : List Operation} {seen seen' : Set BlockId} {exit exit' : Option BlockId} {o o' : Outline}
  {target x join : BlockId}

theorem Spells.append (h : g.Spells lo hi ids ops) (h' : g.Spells lo hi ids' ops') :
    g.Spells lo hi (ids ++ ids') (ops ++ ops') := by
  induction h with
  | nil => exact h'
  | cons hb hwithin _ ih =>
    rw [List.append_assoc]
    exact .cons hb hwithin ih

theorem Spells.mono (h : g.Spells lo hi ids ops) (hlo : lo' ≤ lo) (hhi : hi ≤ hi') : g.Spells lo' hi' ids ops := by
  induction h with
  | nil => exact .nil
  | cons hb hwithin _ ih => exact .cons hb ⟨hlo.trans hwithin.1, hwithin.2.trans_le hhi⟩ ih

theorem Spells.within (h : g.Spells lo hi ids ops) : ∀ id ∈ ids, lo ≤ id.index ∧ id.index < hi := by
  induction h with
  | nil => simp
  | cons _ hwithin _ ih => exact List.forall_mem_cons.2 ⟨hwithin, ih⟩

theorem Spells.mapM (h : g.Spells lo hi ids ops) :
    ∃ l, (ids.mapM fun id => do return (id, ← g.block id)) = Except.ok l ∧ l.flatMap (·.2.ops) = ops := by
  induction h with
  | nil => exact ⟨[], rfl, rfl⟩
  | @cons id b ids ops hb _ _ ih =>
    obtain ⟨l, hl, hops⟩ := ih
    have hblock : g.block id = .ok b := block_eq_ok.2 hb
    refine ⟨(id, b) :: l, ?_, by rw [List.flatMap_cons, hops]⟩
    rw [List.mapM_cons, hblock, hl]
    rfl

/-- Blocks of another part. -/
theorem Spells.apart (h : g.Spells lo hi ids ops) (hdisjoint : hi ≤ lo' ∨ hi' ≤ lo) :
    Apart lo' hi' {id | id ∈ ids} := by
  intro id hid hwithin
  have hown := h.within id hid
  omega

theorem Apart.mono (h : Apart lo hi seen) (hlo : lo ≤ lo') (hhi : hi' ≤ hi) : Apart lo' hi' seen :=
  fun id hid hwithin => h id hid ⟨hlo.trans hwithin.1, hwithin.2.trans_le hhi⟩

theorem Apart.append (h : Apart lo hi {id | id ∈ ids}) (h' : Apart lo hi {id | id ∈ ids'}) :
    Apart lo hi {id | id ∈ ids ++ ids'} := fun id hid => (List.mem_append.1 hid).elim (h id) (h' id)

theorem Apart.union (h : Apart lo hi seen) (h' : Apart lo hi seen') : Apart lo hi (seen ∪ seen') :=
  fun id hid => hid.elim (h id) (h' id)

theorem AlikeBeyond.mono (h : AlikeBeyond lo hi seen seen') (hlo : lo' ≤ lo) (hhi : hi ≤ hi') :
    AlikeBeyond lo' hi' seen seen' := fun id hid =>
  h id fun hwithin => hid ⟨hlo.trans hwithin.1, hwithin.2.trans_le hhi⟩

theorem AlikeBeyond.trans {seen'' : Set BlockId} (h : AlikeBeyond lo hi seen seen')
    (h' : AlikeBeyond lo hi seen' seen'') : AlikeBeyond lo hi seen seen'' :=
  fun id hid => (h' id hid).trans (h id hid)

theorem alikeBeyond_insert (hx : lo ≤ x.index ∧ x.index < hi) : AlikeBeyond lo hi seen (insert x seen) := by
  intro id hid
  refine ⟨fun h => h.resolve_left fun heq => hid (heq ▸ hx), Set.mem_insert_of_mem x⟩

theorem alikeBeyond_union (hids : ∀ id ∈ ids, lo ≤ id.index ∧ id.index < hi) :
    AlikeBeyond lo hi seen (seen ∪ {id | id ∈ ids}) := by
  intro id hid
  exact ⟨fun h => h.resolve_right fun hmem => hid (hids id hmem), Set.mem_union_left _⟩

/-- What is beyond one part stays apart from another. -/
theorem Apart.alike (h : Apart lo hi seen) (halike : AlikeBeyond lo' hi' seen seen') (hdisjoint : hi' ≤ lo ∨ hi ≤ lo') :
    Apart lo hi seen' := by
  intro id hid hwithin
  exact h id ((halike id (by omega)).1 hid) hwithin

theorem ExploresBeyond.alike (h : g.ExploresBeyond lo hi seen targets later) (halike : AlikeBeyond lo hi seen seen')
    (hlo : lo ≤ lo') (hhi : hi' ≤ hi) : g.ExploresBeyond lo' hi' seen' targets later :=
  fun _ halike' => h _ (halike.trans (halike'.mono hlo hhi))

theorem Explores.single (hnot : target ∉ seen) (h : g.Explores (insert target seen) (g.successors target).reverse later) :
    g.Explores seen [target] (target :: later) := .enter hnot h .nil

theorem successors_of_block {b : Block} (hb : g.block? x = some b) : g.successors x = b.exit.targets := by
  rw [successors, hb]
  rfl

theorem successors_of_linked (h : g.Linked exit target) (hx : exit = some x) : (g.successors x).reverse = [target] := by
  obtain ⟨y, hy, -, b, hb, hexit⟩ := h
  obtain rfl := Option.some.inj (hy.symm.trans hx)
  rw [successors_of_block hb, hexit]
  rfl

/-! ### Single blocks -/

theorem lists_block (hholds : g.Holds ⟨lo⟩ ops false) :
    g.Lists lo (lo + 1) [⟨lo⟩] (some ⟨lo⟩) (.onward ops []) := by
  obtain ⟨b, hb, rfl, -⟩ := hholds
  have hwithin : lo ≤ lo ∧ lo < lo + 1 := ⟨le_refl lo, Nat.lt_succ_self lo⟩
  refine ⟨⟨lo⟩, [⟨lo⟩], [], rfl, ?_, .nil, fun seen later hseen _ hbeyond => ?_⟩
  · have hspells : g.Spells lo (lo + 1) [⟨lo⟩] (b.ops ++ []) := .cons hb hwithin .nil
    rwa [List.append_nil] at hspells
  · rw [List.append_nil]
    exact .single (fun hmem => hseen _ hmem hwithin) (hbeyond _ (alikeBeyond_insert hwithin))

theorem lists_single {op : Operation} (hholds : g.Holds ⟨lo⟩ [op] op.isTerminal) :
    g.Lists lo (lo + 1) [⟨lo⟩] (if op.isTerminal then none else some ⟨lo⟩) (.single op) := by
  cases hterminal : op.isTerminal with
  | false =>
    rw [hterminal] at hholds
    rw [Outline.single, hterminal]
    exact lists_block hholds
  | true =>
    obtain ⟨b, hb, hops, hexit⟩ := hholds
    have hwithin : lo ≤ lo ∧ lo < lo + 1 := ⟨le_refl lo, Nat.lt_succ_self lo⟩
    have hspells : g.Spells lo (lo + 1) [⟨lo⟩] (b.ops ++ []) := .cons hb hwithin .nil
    rw [hops] at hspells
    rw [Outline.single, hterminal]
    refine ⟨[⟨lo⟩], hspells, fun seen hseen => .single (fun hmem => hseen _ hmem hwithin) ?_⟩
    rw [successors_of_block hb, hexit hterminal]
    exact .nil

/-! ### Ways of linking -/

/-- Control that gets past one part goes on with another. -/
theorem Lists.andThen (h : g.Lists lo mid targets exit o) (hlo : lo ≤ mid) (hhi : mid ≤ hi)
    (hexit : ∀ x, exit = some x → (g.successors x).reverse = targets') (h' : g.Lists mid hi targets' exit' o') :
    g.Lists lo hi targets exit' (o.andThen o') := by
  cases o with
  | ended ops =>
    obtain ⟨ids, hids, hexplores⟩ := h
    exact ⟨ids, hids.mono (le_refl _) hhi, fun seen hseen => hexplores seen (hseen.mono (le_refl _) hhi)⟩
  | onward before after =>
    obtain ⟨x, ids, ids', hx, hids, hids', hexplores⟩ := h
    rw [hexit x hx] at hexplores
    cases o' with
    | ended ops =>
      obtain ⟨mids, hmids, hexplores'⟩ := h'
      refine ⟨ids ++ mids ++ ids', ?_, fun seen hseen => ?_⟩
      · exact ((hids.mono (le_refl _) hhi).append (hmids.mono hlo (le_refl _))).append (hids'.mono (le_refl _) hhi)
      · refine hexplores seen mids (hseen.mono (le_refl _) hhi) (hmids.apart (.inr (le_refl _))) fun seen' halike => ?_
        exact hexplores' seen' ((hseen.mono hlo (le_refl _)).alike halike (.inl (le_refl _)))
    | onward before' after' =>
      obtain ⟨x', mids, mids', hx', hmids, hmids', hexplores'⟩ := h'
      refine ⟨x', ids ++ mids, mids' ++ ids', hx', ?_, ?_, fun seen later hseen hlater hbeyond => ?_⟩
      · exact (hids.mono (le_refl _) hhi).append (hmids.mono hlo (le_refl _))
      · exact (hmids'.mono hlo (le_refl _)).append (hids'.mono (le_refl _) hhi)
      · have hmiddle : Apart lo mid {id | id ∈ mids ++ later ++ mids'} :=
          ((hmids.apart (.inr (le_refl _))).append (hlater.mono (le_refl _) hhi)).append (hmids'.apart (.inr (le_refl _)))
        have hall := hexplores seen (mids ++ later ++ mids') (hseen.mono (le_refl _) hhi) hmiddle fun seen' halike =>
          hexplores' seen' later ((hseen.mono hlo (le_refl _)).alike halike (.inl (le_refl _)))
            (hlater.mono hlo (le_refl _)) (hbeyond.alike (halike.mono (le_refl _) hhi) hlo (le_refl _))
        simpa only [List.append_assoc] using hall

/-- Nothing comes after an end that is open. -/
theorem Lists.alone (h : g.Lists lo hi targets exit o) (hopen : ∀ x, exit = some x → g.IsOpen x) :
    g.Lists lo hi targets none o.alone := by
  cases o with
  | ended ops => exact h
  | onward before after =>
    obtain ⟨x, ids, ids', hx, hids, hids', hexplores⟩ := h
    obtain ⟨b, hb, hexit⟩ := hopen x hx
    have hnone : g.successors x = [] := by
      rw [successors_of_block hb, hexit]
      rfl
    refine ⟨ids ++ ids', hids.append hids', fun seen hseen => ?_⟩
    have hall := hexplores seen [] hseen (by simp [Apart]) fun _ _ => by
      rw [hnone]
      exact .nil
    rwa [List.append_nil] at hall

/-! ### Arms that meet -/

/-- An arm is listed by itself if the block where the arms meet has been met. -/
theorem Lists.blocked (h : g.Lists lo hi targets exit o) (hlinked : ∀ x, exit = some x → g.Linked exit join)
    (hjoin : ¬ (lo ≤ join.index ∧ join.index < hi)) :
    ∃ ids, g.Spells lo hi ids o.listing ∧ ∀ seen, Apart lo hi seen → join ∈ seen → g.Explores seen targets ids := by
  cases o with
  | ended ops =>
    obtain ⟨ids, hids, hexplores⟩ := h
    exact ⟨ids, hids, fun seen hseen _ => hexplores seen hseen⟩
  | onward before after =>
    obtain ⟨x, ids, ids', hx, hids, hids', hexplores⟩ := h
    rw [successors_of_linked (hlinked x hx) hx] at hexplores
    refine ⟨ids ++ ids', hids.append hids', fun seen hseen hmet => ?_⟩
    have hall := hexplores seen [] hseen (by simp [Apart]) fun seen' halike =>
      .skip ((halike join hjoin).2 hmet) .nil
    rwa [List.append_nil] at hall

/-- Otherwise the block where the arms meet is listed after the arm, with all that comes after it. -/
theorem Lists.joined {before after : List Operation} (h : g.Lists lo hi targets exit (.onward before after))
    (hlinked : ∀ x, exit = some x → g.Linked exit join) (hlo : lo' ≤ lo) (hhi : hi ≤ hi')
    (hjoin : lo' ≤ join.index ∧ join.index < hi') (hout : ¬ (lo ≤ join.index ∧ join.index < hi)) :
    ∃ ids ids', g.Spells lo hi ids before ∧ g.Spells lo hi ids' after ∧ ∀ seen later, Apart lo hi seen → join ∉ seen →
      Apart lo' hi' {id | id ∈ later} → g.ExploresBeyond lo' hi' seen (g.successors join).reverse later →
        g.Explores seen targets (ids ++ join :: later ++ ids') := by
  obtain ⟨x, ids, ids', hx, hids, hids', hexplores⟩ := h
  rw [successors_of_linked (hlinked x hx) hx] at hexplores
  refine ⟨ids, ids', hids, hids', fun seen later hseen hnot hlater hbeyond => ?_⟩
  refine hexplores seen (join :: later) hseen (fun id hid => ?_) fun seen' halike => ?_
  · rcases List.mem_cons.1 hid with rfl | hid
    · exact hout
    · exact (hlater.mono hlo hhi) id hid
  · have hnot' : join ∉ seen' := fun hmem => hnot ((halike join hout).1 hmem)
    exact .single hnot' (hbeyond _ ((halike.mono hlo hhi).trans (alikeBeyond_insert hjoin)))

/-- Two arms that meet between them. -/
theorem Lists.either {y n : Fragment} {oy on : Outline} (hyes : g.Lists lo mid [y.entry] y.exit oy)
    (hno : g.Lists (mid + 1) hi [n.entry] n.exit on) (hlo : lo ≤ mid) (hhi : mid + 1 ≤ hi)
    (hyes' : ∀ x, y.exit = some x → g.Linked y.exit ⟨mid⟩) (hno' : ∀ x, n.exit = some x → g.Linked n.exit ⟨mid⟩)
    (hjoin : g.Holds ⟨mid⟩ [] false) : g.Lists lo hi [n.entry, y.entry] (some ⟨mid⟩) (oy.either on) := by
  obtain ⟨b, hb, hops, -⟩ := hjoin
  have hjoinspells : g.Spells lo hi [⟨mid⟩] [] := by
    have hspells : g.Spells lo hi [⟨mid⟩] (b.ops ++ []) := .cons hb ⟨hlo, by dsimp only; omega⟩ .nil
    rwa [hops] at hspells
  have hle : mid ≤ hi := Nat.le_of_succ_le hhi
  have houtyes : ¬ (lo ≤ (BlockId.mk mid).index ∧ (BlockId.mk mid).index < mid) := by dsimp only; omega
  have houtno : ¬ (mid + 1 ≤ (BlockId.mk mid).index ∧ (BlockId.mk mid).index < hi) := by dsimp only; omega
  cases on with
  | onward before after =>
    obtain ⟨ids, ids', hids, hids', hexplores⟩ :=
      hno.joined hno' (hlo.trans (Nat.le_succ mid)) (le_refl hi) ⟨hlo, by dsimp only; omega⟩ houtno
    obtain ⟨yids, hyids, hexploresyes⟩ := hyes.blocked hyes' houtyes
    refine ⟨⟨mid⟩, yids ++ ids ++ [⟨mid⟩], ids', rfl, ?_, hids'.mono (by omega) (le_refl _),
      fun seen later hseen hlater hbeyond => ?_⟩
    · have hspells := ((hyids.mono (le_refl _) hle).append (hids.mono (by omega) (le_refl _))).append hjoinspells
      rwa [List.append_nil] at hspells
    · have hnot : (⟨mid⟩ : BlockId) ∉ seen := fun hmem => hseen _ hmem ⟨hlo, by dsimp only; omega⟩
      have hfirst := hexplores seen later (hseen.mono (by omega) (le_refl _)) hnot hlater hbeyond
      -- the first arm comes to blocks that have been met
      have happart : Apart lo mid {id | id ∈ ids ++ ⟨mid⟩ :: later ++ ids'} := by
        refine ((hids.apart (.inr (Nat.le_succ mid))).append fun id hid => ?_).append
          (hids'.apart (.inr (Nat.le_succ mid)))
        rcases List.mem_cons.1 hid with rfl | hid
        · exact houtyes
        · exact (hlater.mono (le_refl _) hle) id hid
      have hsecond := hexploresyes _ ((hseen.mono (le_refl _) hle).union happart) (.inr (by simp))
      have hboth := hfirst.append hsecond
      simpa using hboth
  | ended ops =>
    obtain ⟨nids, hnids, hexploresno⟩ := hno
    cases oy with
    | ended ops' =>
      obtain ⟨yids, hyids, hexploresyes⟩ := hyes
      refine ⟨yids ++ nids, (hyids.mono (le_refl _) hle).append (hnids.mono (by omega) (le_refl _)),
        fun seen hseen => ?_⟩
      have hfirst := hexploresno seen (hseen.mono (by omega) (le_refl _))
      have hsecond := hexploresyes _ ((hseen.mono (le_refl _) hle).union (hnids.apart (.inr (Nat.le_succ mid))))
      exact hfirst.append hsecond
    | onward before after =>
      obtain ⟨ids, ids', hids, hids', hexplores⟩ :=
        hyes.joined hyes' (le_refl lo) hle ⟨hlo, by dsimp only; omega⟩ houtyes
      refine ⟨⟨mid⟩, ids ++ [⟨mid⟩], ids' ++ nids, rfl, ?_, ?_, fun seen later hseen hlater hbeyond => ?_⟩
      · have hspells := (hids.mono (le_refl _) hle).append hjoinspells
        rwa [List.append_nil] at hspells
      · exact (hids'.mono (le_refl _) hle).append (hnids.mono (by omega) (le_refl _))
      · have hfirst := hexploresno seen (hseen.mono (by omega) (le_refl _))
        have hnot : (⟨mid⟩ : BlockId) ∉ seen ∪ {id | id ∈ nids} := by
          rintro (hmem | hmem)
          · exact hseen _ hmem ⟨hlo, by dsimp only; omega⟩
          · exact houtno (hnids.within _ hmem)
        have hwithin : ∀ id ∈ nids, lo ≤ id.index ∧ id.index < hi := (hnids.mono (by omega) (le_refl _)).within
        have hsecond := hexplores _ later ((hseen.mono (le_refl _) hle).union (hnids.apart (.inr (Nat.le_succ mid))))
          hnot hlater (hbeyond.alike (alikeBeyond_union hwithin) (le_refl _) (le_refl _))
        have hboth := hfirst.append hsecond
        simpa using hboth

/-- An arm that control may pass by. -/
theorem Lists.optional {body : Fragment} (h : g.Lists lo hi [body.entry] body.exit o) (hlo : lo ≤ hi)
    (hjoined : ∀ x, body.exit = some x → g.Linked body.exit ⟨hi⟩) (hjoin : g.Holds ⟨hi⟩ [] false) :
    g.Lists lo (hi + 1) [⟨hi⟩, body.entry] (some ⟨hi⟩) (.onward o.listing []) := by
  obtain ⟨b, hb, hops, -⟩ := hjoin
  have hwithin : lo ≤ (BlockId.mk hi).index ∧ (BlockId.mk hi).index < hi + 1 := ⟨hlo, Nat.lt_succ_self hi⟩
  have hout : ¬ (lo ≤ (BlockId.mk hi).index ∧ (BlockId.mk hi).index < hi) := by dsimp only; omega
  have hjoinspells : g.Spells lo (hi + 1) [⟨hi⟩] [] := by
    have hspells : g.Spells lo (hi + 1) [⟨hi⟩] (b.ops ++ []) := .cons hb hwithin .nil
    rwa [hops] at hspells
  obtain ⟨ids, hids, hexplores⟩ := h.blocked hjoined hout
  refine ⟨⟨hi⟩, ids ++ [⟨hi⟩], [], rfl, ?_, .nil, fun seen later hseen hlater hbeyond => ?_⟩
  · have hspells := (hids.mono (le_refl _) (Nat.le_succ hi)).append hjoinspells
    rwa [List.append_nil] at hspells
  · have hfirst : g.Explores seen [⟨hi⟩] (⟨hi⟩ :: later) :=
      .single (fun hmem => hseen _ hmem hwithin) (hbeyond _ (alikeBeyond_insert hwithin))
    have happart : Apart lo hi {id | id ∈ (⟨hi⟩ : BlockId) :: later} := by
      intro id hid
      rcases List.mem_cons.1 hid with rfl | hid
      · exact hout
      · exact (hlater.mono (le_refl _) (Nat.le_succ hi)) id hid
    have hsecond := hexplores _ ((hseen.mono (le_refl _) (Nat.le_succ hi)).union happart) (.inr (by simp))
    have hboth := hfirst.append hsecond
    simpa using hboth

/-! ### Whole fragments -/

/-- The operations of a fragment with nothing after it. -/
theorem Lists.flatten {f : Fragment} (h : g.Lists lo hi [f.entry] f.exit o) (hopen : ∀ x, f.exit = some x → g.IsOpen x) :
    g.flatten f.entry = .ok o.listing := by
  obtain ⟨ids, hids, hexplores⟩ := h.alone hopen
  have horder := order_of_explores (hexplores ∅ (by simp [Apart]))
  obtain ⟨l, hl, hops⟩ := hids.mapM
  rw [BlockGraph.flatten, trace, horder, hl, ← hops]
  rfl

end Parts

end BlockGraph

end ScratchMachine
