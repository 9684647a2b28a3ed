import ScratchMachine.Proofs.Declaring
import ScratchMachine.Proofs.Prologues

/-!
# Parameters and their slots

Every parameter of a declared subroutine has a slot from the pool, which no other parameter has, of this subroutine or
of another.  The body knows the parameter by a handle that reads this slot.

* `Compiler.build_passes_handles`: the handles that a body is built from.
* `Declaration.FurnishedIn`: a declaration has its slots, and its code begins by storing the arguments there.
* `Compiler.compile_furnishes`: the slots of the parameters in a compiled program.
-/

namespace ScratchMachine

open BlockGraph Fallible

/-- The handle of a parameter, given the variable that holds it. -/
def Param.handle (p : Param) (holder : Variable) : Arg :=
  match p.passing with
  | .value => .value holder.load
  | .ref => .ref ⟨p.type, .computed holder.load, some p.type⟩

/-- The handles of the parameters. -/
def Declaration.handles (d : Declaration) : List Arg := List.zipWith Param.handle d.subroutine.params d.holders

/-- The slots of the parameters. -/
def Declaration.slots (d : Declaration) : List UInt64 := d.holders.filterMap Variable.ownSlot?

theorem filterMap_of_map_eq {α β : Type} {f : α → Option β} {l : List α} {l' : List β} (h : l.map f = l'.map some) :
    l.filterMap f = l' := by
  induction l generalizing l' with
  | nil => simpa using h.symm
  | cons a l ih =>
    cases l' with
    | nil => cases h
    | cons b l' =>
      rw [List.map_cons, List.map_cons, List.cons.injEq] at h
      rw [List.filterMap_cons_some h.1, ih h.2]

namespace Compiler

variable {σ : Type} {c c' c'' : Compiler σ}

/-! ### Binding parameters -/

/-- A variable from the pool owns a slot that was not handed out before. -/
structure Pooled (c : Compiler σ) (v : Variable) (slot : UInt64) (c' : Compiler σ) : Prop where
  takes : c.Takes c'
  ownSlot : v.ownSlot? = some slot
  fresh : c.slots.Ordered → slot ∉ c.slots.pooled
  pooled : slot ∈ c'.slots.pooled

theorem newVariable_pooled (type : ValueType) (c : Compiler σ) :
    Ensures (newVariable type .pool none) c (fun v c' => ∃ slot, c.Pooled v slot c') fun _ => True := by
  refine ensures_bind (ensures_bind (ensures_get (ensures_bind (ensures_lift (fun a ha => ?_) trivial))))
  obtain ⟨location, slots⟩ := a
  have hgrows : c.slots.Grows slots := SlotAllocator.take_grows ha
  obtain ⟨slot, rfl, -, -, hpooled⟩ := SlotAllocator.takePooled_eq_ok ha
  refine ensures_bind (ensures_modify (ensures_pure (ensures_pure ⟨slot, ⟨rfl, hgrows⟩, rfl, fun hordered => ?_, ?_⟩)))
  · obtain ⟨slot', heq, hfresh, -⟩ := SlotAllocator.takePooled_fresh hordered ha
    cases heq
    exact hfresh
  · simp [hpooled]

theorem newVariable_computed (type : ValueType) (index : Expr) (c : Compiler σ) :
    Ensures (newVariable type (.computed index) none) c (fun v _ => v = ⟨type, .computed index, none⟩) fun _ => True := by
  refine ensures_bind (ensures_bind (ensures_get (ensures_bind (ensures_lift (fun a ha => ?_) trivial))))
  simp only [SlotAllocator.take, SlotAllocator.takeComputed] at ha
  split at ha
  · cases ha
    exact ensures_bind (ensures_modify (ensures_pure (ensures_pure rfl)))
  · cases ha

theorem Pooled.mono {v : Variable} {slot : UInt64} (h : c.Pooled v slot c') (h' : c'.Takes c'') : c.Pooled v slot c'' :=
  ⟨h.takes.trans h', h.ownSlot, h.fresh, h'.slots.pooled h.pooled⟩

theorem bindParam_ensures (p : Param) (c : Compiler σ) :
    Ensures (bindParam p) c (fun a c' => a.2 = p.handle a.1 ∧ ∃ slot, c.Pooled a.1 slot c') fun _ => True := by
  obtain ⟨name, passing, type⟩ := p
  cases passing with
  | value => exact ensures_bind ((newVariable_pooled type c).imp (fun v c₁ h => ensures_pure ⟨rfl, h⟩) fun _ _ => trivial)
  | ref =>
    refine ensures_bind ((newVariable_pooled .uint64 c).imp (fun holder c₁ h => ?_) fun _ _ => trivial)
    obtain ⟨slot, hslot⟩ := h
    -- the alias and its target take no slots
    refine ensures_bind (((takesSlots_newVariable type (.computed holder.load) none c₁).and
      (newVariable_computed type holder.load c₁)).imp (fun target c₂ h => ?_) fun _ _ => trivial)
    obtain ⟨htakes, rfl⟩ := h
    exact ensures_bind (ensures_pure (ensures_pure ⟨rfl, slot, hslot.mono htakes⟩))

/-- Variables own slots that were not handed out before, each its own. -/
structure AllPooled (c : Compiler σ) (vs : List Variable) (slots : List UInt64) (c' : Compiler σ) : Prop where
  takes : c.Takes c'
  ownSlots : vs.map (·.ownSlot?) = slots.map some
  fresh : c.slots.Ordered → slots.Nodup ∧ ∀ slot ∈ slots, slot ∉ c.slots.pooled
  pooled : ∀ slot ∈ slots, slot ∈ c'.slots.pooled

theorem bindParams_ensures (params : List Param) (c : Compiler σ) :
    Ensures (params.mapM bindParam) c
      (fun l c' => l.map (·.2) = List.zipWith Param.handle params (l.map (·.1)) ∧
        ∃ slots, c.AllPooled (l.map (·.1)) slots c') fun _ => True := by
  induction params generalizing c with
  | nil => exact ensures_pure ⟨rfl, [], .refl c, rfl, fun _ => ⟨.nil, by simp⟩, by simp⟩
  | cons p params ih =>
    rw [List.mapM_cons]
    refine ensures_bind ((bindParam_ensures p c).imp (fun a c₁ h => ?_) fun _ _ => trivial)
    obtain ⟨hhandle, slot, hslot⟩ := h
    refine ensures_bind ((ih c₁).imp (fun l c₂ h => ensures_pure ?_) fun _ _ => trivial)
    obtain ⟨hhandles, slots, hslots⟩ := h
    refine ⟨?_, slot :: slots, hslot.takes.trans hslots.takes, ?_, fun hordered => ?_, fun other hother => ?_⟩
    · rw [List.map_cons, List.map_cons, List.zipWith_cons_cons, hhandle, hhandles]
    · rw [List.map_cons, List.map_cons, List.map_cons, hslot.ownSlot, hslots.ownSlots]
    · have hnew := hslot.fresh hordered
      obtain ⟨hnodup, hfresh⟩ := hslots.fresh (hslot.takes.slots.ordered hordered)
      refine ⟨List.nodup_cons.2 ⟨fun hmem => hfresh slot hmem hslot.pooled, hnodup⟩, fun other hother => ?_⟩
      rcases List.mem_cons.1 hother with rfl | hother
      · exact hnew
      · exact fun hmem => hfresh other hother (hslot.takes.slots.pooled hmem)
    · rcases List.mem_cons.1 hother with rfl | hother
      · exact hslots.takes.slots.pooled hslot.pooled
      · exact hslots.pooled other hother

/-- The body of a declaration is what its builder makes of the handles. -/
theorem build_passes_handles {declare : Subroutine → Declaring σ Declaration} {d : Definition σ} {decl : Declaration}
    (h : (build declare d).run.run c = some (.ok decl, c')) :
    ∃ c₁ c₂, ((d.body d.handle decl.handles).run declare).run.run c₁ = some (.ok decl.body, c₂) := by
  have hensures : Declaring.Ensures (build declare d) c
      (fun decl _ => ∃ c₁ c₂, ((d.body d.handle decl.handles).run declare).run.run c₁ = some (.ok decl.body, c₂))
      fun _ => True := by
    refine Declaring.ensures_bind (Declaring.ensures_perform ((bindParams_ensures d.handle.params c).imp
      (fun params c₁ h => ?_) fun _ _ => trivial))
    refine Declaring.ensures_bind (Declaring.ensures_run.imp (fun body c₂ hbody => ?_) fun _ _ => trivial)
    refine Declaring.ensures_bind (Declaring.ensures_lift (fun _ _ => ?_) trivial)
    refine Declaring.ensures_bind (Declaring.ensures_lift (fun code _ => ?_) trivial)
    refine Declaring.ensures_bind (Declaring.ensures_any (fun fragment c₃ => Declaring.ensures_pure ?_) fun _ => trivial)
    rw [h.1] at hbody
    exact ⟨c₁, c₂, hbody⟩
  exact hensures.of_ok h

end Compiler

/-! ### Furnished declarations -/

/-- Each parameter has a slot of its own, which is from the pool, and the code begins by storing the arguments there,
the last one first. -/
structure Declaration.FurnishedIn (pooled : List UInt64) (g : BlockGraph) (d : Declaration) : Prop where
  holders : d.holders.map (·.ownSlot?) = d.slots.map some
  nodup : d.slots.Nodup
  pooled : d.slots ⊆ pooled
  line : ∃ last, g.Line d.fragment.entry (d.slots.reverse.map .store) last

theorem Declaration.FurnishedIn.mono {pooled pooled' : List UInt64} {g g' : BlockGraph} {d : Declaration}
    (h : d.FurnishedIn pooled g) (hpooled : pooled ⊆ pooled') (hext : g.Extends g') : d.FurnishedIn pooled' g' := by
  obtain ⟨last, hline⟩ := h.line
  exact ⟨h.holders, h.nodup, List.Subset.trans h.pooled hpooled, last, hline.mono hext⟩

theorem mapM_storeTop {vs : List Variable} {slots : List UInt64} {stores : List Expr}
    (hslots : vs.map (·.ownSlot?) = slots.map some) (hstores : vs.mapM (·.storeTop) = .ok stores) :
    stores = slots.map fun slot => .ofOp (.store slot) [] .none := by
  have hall := forall₂_of_mapM hstores
  clear hstores
  induction hall generalizing slots with
  | nil =>
    cases slots with
    | nil => rfl
    | cons slot slots => cases hslots
  | @cons v e vs stores hv _ ih =>
    cases slots with
    | nil => cases hslots
    | cons slot slots =>
      rw [List.map_cons, List.map_cons, List.cons.injEq] at hslots
      unfold Variable.storeTop at hv
      rw [hslots.1] at hv
      cases hv
      rw [List.map_cons, ← ih hslots.2]

namespace Compiler

variable {σ : Type} {c c' c'' : Compiler σ}

/-- What a subroutine runs stores its arguments in the slots of its parameters, the last one first. -/
theorem prologue_eq {holders : List Variable} {slots : List UInt64} {tail code : Expr}
    (hslots : holders.map (·.ownSlot?) = slots.map some) (hcode : prologue holders tail = .ok code) :
    code = .seq (slots.reverse.map (fun slot => .ofOp (.store slot) [] .none) ++ [tail]) := by
  obtain ⟨stores, hstores, hseq⟩ := except_bind_eq_ok.1 hcode
  cases hseq
  have hreverse : holders.reverse.map (·.ownSlot?) = slots.reverse.map some := by
    rw [List.map_reverse, List.map_reverse, hslots]
  rw [mapM_storeTop hreverse hstores]

/-- No two parameters of declared subroutines have the same slot. -/
structure Furnished (c : Compiler σ) : Prop where
  ordered : c.slots.Ordered
  declarations : ∀ d ∈ c.declarations, d.FurnishedIn c.slots.pooled c.graph
  apart : ∀ d ∈ c.declarations, ∀ d' ∈ c.declarations, ∀ slot ∈ d.slots, slot ∈ d'.slots → d = d'

/-- One state follows another, and the slots of new declarations were not handed out before. -/
structure Furnishes (c c' : Compiler σ) : Prop where
  keeps : c.Keeps c'
  pooled : c.slots.pooled ⊆ c'.slots.pooled
  new : ∀ d ∈ c'.declarations, d ∈ c.declarations ∨ ∀ slot ∈ d.slots, slot ∉ c.slots.pooled
  furnished : c'.Furnished

theorem Furnishes.trans (h : c.Furnishes c') (h' : c'.Furnishes c'') : c.Furnishes c'' := by
  refine ⟨h.keeps.trans h'.keeps, List.Subset.trans h.pooled h'.pooled, fun d hd => ?_, h'.furnished⟩
  rcases h'.new d hd with hold | hnew
  · exact h.new d hold
  · exact .inr fun slot hslot hmem => hnew slot hslot (h.pooled hmem)

theorem Furnishes.of_same (h : c.Furnishes c) (hkeeps : c.Keeps c') (hslots : c.slots.Grows c'.slots)
    (hdecls : ∀ d ∈ c'.declarations, d ∈ c.declarations) : c.Furnishes c' := by
  refine ⟨hkeeps, hslots.pooled, fun d hd => .inl (hdecls d hd), hslots.ordered h.furnished.ordered, fun d hd => ?_, ?_⟩
  · exact (h.furnished.declarations d (hdecls d hd)).mono hslots.pooled hkeeps.2.grows.extends'
  · exact fun d hd d' hd' => h.furnished.apart d (hdecls d hd) d' (hdecls d' hd')

/-- What was built has the slots that were handed out to it. -/
theorem BuiltFrom.furnished {d : Definition σ} {decl : Declaration} (h : BuiltFrom Furnishes d c decl c')
    (hc : c.Furnishes c) : decl.FurnishedIn c'.slots.pooled c'.graph ∧ (∀ slot ∈ decl.slots, slot ∉ c.slots.pooled) ∧
      ∀ d' ∈ c'.declarations, ∀ slot ∈ decl.slots, slot ∉ d'.slots := by
  obtain ⟨params, c₁, c₂, c₃, code, hparams, hstep, -, hholders, hcode, hlower, rfl⟩ := h
  obtain ⟨-, slots, hpooled⟩ := (bindParams_ensures d.handle.params c).of_ok hparams
  obtain ⟨hnodup, hfresh⟩ := hpooled.fresh hc.furnished.ordered
  rw [← hholders] at hpooled
  obtain rfl : decl.slots = slots := filterMap_of_map_eq hpooled.ownSlots
  rw [prologue_eq hpooled.ownSlots hcode] at hlower
  have hadvances := ((lower_ensures _ _).of_ok hlower).advances
  obtain ⟨last, -, -, hline, -⟩ := (lower_prologue (everywhere_owns _) _).of_ok hlower
  have hslots₃ : c₃.slots = c₂.slots := by rw [hadvances.rest]
  have hdecls₃ : c₃.declarations = c₂.declarations := by
    unfold Compiler.declarations
    rw [hadvances.rest]
  refine ⟨⟨hpooled.ownSlots, hnodup, fun slot hslot => ?_, last, hline⟩, hfresh, ?_⟩
  · show slot ∈ c₃.slots.pooled
    rw [hslots₃]
    exact hstep.pooled (hpooled.pooled slot hslot)
  · -- another declaration was there before the slots were handed out, or its own were handed out later
    intro d' hd' slot hslot hslot'
    have hd'' : d' ∈ c₂.declarations := hdecls₃ ▸ hd'
    rcases hstep.new d' hd'' with hold | hnew
    · have hold' : d' ∈ c.declarations := by
        rw [hpooled.takes.rest] at hold
        exact hold
      exact hfresh slot hslot ((hc.furnished.declarations d' hold').pooled hslot')
    · exact hnew slot hslot' (hpooled.pooled slot hslot)

theorem enduring_furnishes : Enduring (Furnishes (σ := σ)) where
  trans := Furnishes.trans
  stays h := ⟨h.keeps.1.keeps, List.Subset.refl _, fun _ => .inl, h.furnished⟩
  slots h hslots := h.of_same (enduring_keeps.slots h.keeps hslots) hslots fun _ => id
  host host h := h.of_same (enduring_keeps.host host h.keeps) (.refl _) fun _ => id
  current current h := h.of_same (enduring_keeps.current current h.keeps) (.refl _) fun _ => id
  define name params returns body h :=
    h.of_same (enduring_keeps.define name params returns body h.keeps) (.refl _) fun _ => mem_declarations_define
  lower h hlower hadvances := by
    refine h.of_same (enduring_keeps.lower h.keeps hlower hadvances) ?_ fun d hd => ?_
    · rw [hadvances.rest]
      exact .refl _
    · rw [hadvances.rest] at hd
      exact hd
  evolves h := h.keeps.2
  pending pending h := h.of_same (enduring_keeps.pending pending h.keeps) (.refl _) fun _ => id
  undeclared h hstatus := h.of_same (enduring_keeps.undeclared h.keeps hstatus) (.refl _) fun d hd =>
    (mem_declarations_withStatus hd).resolve_right (hstatus d)
  declared {c c' s d decl} hc h hbuilt hhandle hdefines := by
    obtain ⟨hfurnished, hfresh, hapart⟩ := hbuilt.furnished hc
    have hkeeps := enduring_keeps.declared hc.keeps h.keeps (hbuilt.mono fun h => h.keeps) hhandle hdefines
    have hdecls : ∀ d' ∈ (c'.withStatus s (.declared decl)).declarations, d' ∈ c'.declarations ∨ d' = decl :=
      fun d' hd' => (mem_declarations_withStatus hd').imp_right fun heq => by cases heq; rfl
    refine ⟨hkeeps, h.pooled, fun d' hd' => ?_, h.furnished.ordered, fun d' hd' => ?_, fun d₁ hd₁ d₂ hd₂ slot hs₁ hs₂ => ?_⟩
    · rcases hdecls d' hd' with hold | rfl
      · exact h.new d' hold
      · exact .inr hfresh
    · rcases hdecls d' hd' with hold | rfl
      · exact h.furnished.declarations d' hold
      · exact hfurnished
    · rcases hdecls d₁ hd₁ with hold₁ | rfl <;> rcases hdecls d₂ hd₂ with hold₂ | rfl
      · exact h.furnished.apart d₁ hold₁ d₂ hold₂ slot hs₁ hs₂
      · exact absurd hs₁ (hapart d₁ hold₁ slot hs₂)
      · exact absurd hs₂ (hapart d₂ hold₂ slot hs₁)
      · rfl

theorem Reachable.furnishes (h : c.Reachable) : c.Furnishes c := by
  refine h.holds enduring_furnishes fun key options host c hcreate => ?_
  have hkeeps := (sound_of_create hcreate).keeps
  obtain ⟨-, -, hcreate⟩ := except_bind_eq_ok.1 hcreate
  cases hcreate
  refine ⟨hkeeps, List.Subset.refl _, fun _ => .inl, SlotAllocator.ordered_empty _, fun d hd => ?_, fun d hd => ?_⟩
  · cases hd
  · cases hd

/-! ### Compiled programs -/

theorem compile_state (limit : Nat) (root : Expr) (c : Compiler σ) :
    Declaring.Ensures (compile limit root) c
      (fun compilation c' => compilation.graph = c'.graph ∧ compilation.declarations = c'.declarations) fun _ => True := by
  refine Declaring.ensures_bind (Declaring.ensures_modify (Declaring.ensures_bind (Declaring.ensures_any ?_ ?_)))
  · intro main c₁
    refine Declaring.ensures_bind (Declaring.ensures_any (fun _ c₂ => ?_) fun _ => trivial)
    exact Declaring.ensures_bind (Declaring.ensures_get (Declaring.ensures_pure ⟨rfl, rfl⟩))
  · exact fun _ => trivial

/-- In a compiled program all parameters have their slots, and no two have the same. -/
theorem compile_furnished (hc : c.Furnishes c) {limit : Nat} {root : Expr} {compilation : Compilation}
    (hcompile : (compile limit root).run.run c = some (.ok compilation, c')) :
    (∀ d ∈ compilation.declarations, d.FurnishedIn c'.slots.pooled compilation.graph) ∧
      ∀ d ∈ compilation.declarations, ∀ d' ∈ compilation.declarations, ∀ slot ∈ d.slots, slot ∈ d'.slots → d = d' := by
  obtain ⟨hgraph, hdecls⟩ := (compile_state limit root c).of_ok hcompile
  have hfurnished := ((safe_compile enduring_furnishes limit root).holds hc hcompile).furnished
  rw [hgraph, hdecls]
  exact ⟨hfurnished.declarations, hfurnished.apart⟩

/-- So it is for every compiler that a host can come to have. -/
theorem compile_furnishes (hc : c.Reachable) {limit : Nat} {root : Expr} {compilation : Compilation}
    (hcompile : (compile limit root).run.run c = some (.ok compilation, c')) :
    (∀ d ∈ compilation.declarations, d.FurnishedIn c'.slots.pooled compilation.graph) ∧
      ∀ d ∈ compilation.declarations, ∀ d' ∈ compilation.declarations, ∀ slot ∈ d.slots, slot ∈ d'.slots → d = d' :=
  compile_furnished hc.furnishes hcompile

end Compiler

end ScratchMachine
