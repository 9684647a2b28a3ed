import ScratchMachine.Proofs.Enclosure
import ScratchMachine.Proofs.Steady

/-!
# Calls and the declarations they need

A subroutine that is called waits for its declaration, or has it, or it is being made.  Requests of hosts keep this for
the calls in everything that has been declared, and so do the beginning and the successful end of a declaration.  It is
lost only if a declaration is abandoned after others were made on the way.

* `Compiler.Follows`: what never goes back while a compiler works.
* `Compiler.Resolved`: the calls in all declarations are of subroutines that are declared or will be.
-/

namespace ScratchMachine

open BlockGraph Fallible Declaring

/-! ### Calls by operation nodes -/

namespace Expr

/-- A node of the tree is this operation. -/
def HasOp (e : Expr) (op : Operation) : Prop := ∃ args type returns, Within (.op op args type returns) e

/-- A node of the tree calls a subroutine as an operation, past the nodes of calls. -/
def CallsRaw (e : Expr) (id : SubroutineId) : Prop := ∃ args type returns, Within (.op (.callsub id) args type returns) e

/-- The node is not an operation that calls. -/
def NoRawCall : Expr → Prop
  | op (.callsub _) _ _ _ => False
  | _ => True

theorem not_callsRaw {e : Expr} (h : e.Everywhere NoRawCall) (id : SubroutineId) : ¬ e.CallsRaw id := by
  rintro ⟨args, type, returns, hwithin⟩
  exact h.within hwithin

/-- An operation that a tree becomes by itself calls a subroutine only by an operation node. -/
theorem owns_callsRaw (e : Expr) : e.Everywhere (Compiler.Owns fun op => ∀ id, op = .callsub id → e.CallsRaw id) := by
  refine everywhere_of_within fun q hq => ?_
  cases q with
  | op o args type returns =>
    rintro id rfl
    exact ⟨args, type, returns, hq⟩
  | _ => simp [Compiler.Owns]

end Expr

namespace Compiler

/-- A return at the end is no operation node. -/
theorem hasOp_withReturn {s : Subroutine} {body : Expr} {op : Operation} (h : (withReturn s body).HasOp op) :
    body.HasOp op := by
  obtain ⟨args, type, returns, hwithin⟩ := h
  unfold withReturn at hwithin
  split at hwithin
  · exact ⟨args, type, returns, hwithin⟩
  · split at hwithin
    · cases hwithin with
      | part hpart hwithin =>
        simp only [Expr.parts, List.mem_cons, List.not_mem_nil, or_false] at hpart
        rcases hpart with rfl | rfl
        · exact ⟨args, type, returns, hwithin⟩
        · cases hwithin with
          | part hpart _ => cases hpart
    · cases hwithin with
      | part hpart hwithin =>
        obtain rfl := List.mem_singleton.1 hpart
        exact ⟨args, type, returns, hwithin⟩

theorem callsRaw_withReturn {s : Subroutine} {body : Expr} {id : SubroutineId} (h : (withReturn s body).CallsRaw id) :
    body.CallsRaw id := hasOp_withReturn h

/-- The operations that store the arguments call nothing. -/
theorem callsRaw_prologue {holders : List Variable} {tail code : Expr} (hcode : prologue holders tail = .ok code)
    {id : SubroutineId} (h : code.CallsRaw id) : tail.CallsRaw id := by
  obtain ⟨stores, rfl, hstores⟩ := prologue_eq_ok hcode
  obtain ⟨args, type, returns, hwithin⟩ := h
  cases hwithin with
  | part hpart hwithin =>
    rcases List.mem_append.1 hpart with hstore | htail
    · obtain ⟨slot, rfl⟩ := hstores _ hstore
      cases hwithin with
      | part hpart _ => cases hpart
    · obtain rfl := List.mem_singleton.1 htail
      exact ⟨args, type, returns, hwithin⟩

/-! ### What never goes back -/

variable {σ : Type} {c c' c'' : Compiler σ} {known known' excused : SubroutineId → Prop}

/-- Subroutines that wait go on to wait, a declaration that is made or being made stays so, and none is begun without
coming to its end. -/
structure Follows (c c' : Compiler σ) : Prop where
  awaiting : c.pending ⊆ c'.pending
  statuses : ∀ (i : Nat) (d : Definition σ), c.definitions[i]? = some d → d.status ≠ .undeclared →
    ∃ d', c'.definitions[i]? = some d' ∧ d'.status = d.status
  begun : ∀ (i : Nat) (d' : Definition σ), c'.definitions[i]? = some d' → d'.status = .declaring →
    ∃ d, c.definitions[i]? = some d ∧ d.status = .declaring

theorem Follows.of_eq (hpending : c.pending ⊆ c'.pending) (hdefs : c'.definitions = c.definitions) : c.Follows c' :=
  ⟨hpending, fun _ d hd _ => ⟨d, hdefs ▸ hd, rfl⟩, fun _ d hd hbegun => ⟨d, hdefs ▸ hd, hbegun⟩⟩

theorem Follows.trans (h : c.Follows c') (h' : c'.Follows c'') : c.Follows c'' := by
  refine ⟨List.Subset.trans h.awaiting h'.awaiting, fun i d hd hstatus => ?_, fun i d hd hbegun => ?_⟩
  · obtain ⟨d', hd', heq⟩ := h.statuses i d hd hstatus
    obtain ⟨d'', hd'', heq'⟩ := h'.statuses i d' hd' (heq ▸ hstatus)
    exact ⟨d'', hd'', heq'.trans heq⟩
  · obtain ⟨d', hd', hbegun'⟩ := h'.begun i d hd hbegun
    exact h.begun i d' hd' hbegun'

theorem Follows.awaited (h : c.Follows c') {id : SubroutineId} (hid : c.Awaited id) : c'.Awaited id := by
  rcases hid with ⟨s, hs, hid⟩ | ⟨d, hd, hstatus⟩
  · exact .inl ⟨s, h.awaiting hs, hid⟩
  · obtain ⟨d', hd', heq⟩ := h.statuses _ d hd hstatus
    exact .inr ⟨d', hd', heq ▸ hstatus⟩

theorem Follows.declarations (h : c.Follows c') {decl : Declaration} (hdecl : decl ∈ c.declarations) :
    decl ∈ c'.declarations := by
  obtain ⟨i, d, hd, hstatus⟩ := mem_declarations.1 hdecl
  obtain ⟨d', hd', heq⟩ := h.statuses i d hd (by simp [hstatus])
  exact mem_declarations.2 ⟨i, d', hd', heq.trans hstatus⟩

/-! ### Resolved calls -/

end Compiler

/-- Control does not leave the blocks around the entry of a fragment, and calls there are of known subroutines. -/
def Fragment.Resolved (g : BlockGraph) (known : SubroutineId → Prop) (f : Fragment) : Prop :=
  ∃ lo hi, (lo ≤ f.entry.index ∧ f.entry.index < hi) ∧ hi ≤ g.size ∧
    g.Encloses lo hi fun op => ∀ id, op = .callsub id → known id

theorem Fragment.Resolved.mono {g g' : BlockGraph} {known known' : SubroutineId → Prop} {f : Fragment}
    (h : f.Resolved g known) (hgrows : Grows g.size g g') (hknown : ∀ id, known id → known' id) :
    f.Resolved g' known' := by
  obtain ⟨lo, hi, hentry, hhi, hencloses⟩ := h
  exact ⟨lo, hi, hentry, hhi.trans hgrows.extends'.size_le,
    (hencloses.grows hgrows hhi).imp fun _ hop id hid => hknown id (hop id hid)⟩

theorem Fragment.Resolved.reaches {g : BlockGraph} {known : SubroutineId → Prop} {f : Fragment}
    (h : f.Resolved g known) {id : BlockId} {b : Block} (hreach : g.Reaches f.entry id) (hb : g.block? id = some b)
    {callee : SubroutineId} (hcall : .callsub callee ∈ b.ops) : known callee := by
  obtain ⟨lo, hi, hentry, -, hencloses⟩ := h
  obtain ⟨hlo, hhi⟩ := hencloses.reaches hentry hreach
  exact (hencloses id b hlo hhi hb).1 _ hcall callee rfl

namespace Compiler

variable {σ : Type} {c c' c'' : Compiler σ} {known known' excused : SubroutineId → Prop}

/-- The calls in all that has been declared are of subroutines that have their declaration or will have it, but for
those excused and those made by operation nodes. -/
def Resolved (excused : SubroutineId → Prop) (c : Compiler σ) : Prop :=
  ∀ decl ∈ c.declarations, decl.fragment.Resolved c.graph fun id => (c.Awaited id ∨ excused id) ∨ decl.body.CallsRaw id

theorem Resolved.mono {excused' : SubroutineId → Prop} (h : c.Resolved excused)
    (hgrows : Grows c.graph.size c.graph c'.graph) (hdecls : ∀ decl ∈ c'.declarations, decl ∈ c.declarations)
    (hknown : ∀ id, c.Awaited id ∨ excused id → c'.Awaited id ∨ excused' id) : c'.Resolved excused' :=
  fun decl hdecl => (h decl (hdecls decl hdecl)).mono hgrows fun id => Or.imp_left (hknown id)

/-- One state follows another, is sound, and its calls are resolved. -/
structure Proceeds (excused : SubroutineId → Prop) (c c' : Compiler σ) : Prop where
  keeps : c.Keeps c'
  follows : c.Follows c'
  resolved : c'.Resolved excused

theorem Proceeds.of_eq (h : Proceeds excused c c) (hgrows : Grows c.graph.size c.graph c'.graph)
    (hdefs : c'.definitions = c.definitions) (hpending : c.pending ⊆ c'.pending) : Proceeds excused c c' := by
  have hfollows : c.Follows c' := .of_eq hpending hdefs
  refine ⟨⟨h.keeps.1.of_grows hgrows hdefs, .of_grows hgrows hdefs⟩, hfollows, ?_⟩
  refine h.resolved.mono hgrows (fun decl hdecl => ?_) fun id => Or.imp_left hfollows.awaited
  rwa [declarations, hdefs] at hdecl

theorem course_proceeds (excused : SubroutineId → Prop) : Course (Proceeds (σ := σ) excused) where
  trans h h' := ⟨h.keeps.trans h'.keeps, h.follows.trans h'.follows, h'.resolved⟩
  stays h := ⟨h.keeps.1.keeps, .of_eq (List.Subset.refl _) rfl, h.resolved⟩
  slots h _ := h.of_eq (.refl _ _) rfl (List.Subset.refl _)
  host _ h := h.of_eq (.refl _ _) rfl (List.Subset.refl _)
  current _ h := h.of_eq (.refl _ _) rfl (List.Subset.refl _)
  define {c} name params returns body h := by
    have hfollows : c.Follows (c.define name params returns body).2 := by
      refine ⟨List.Subset.refl _, fun i d hd _ => ⟨d, ?_, rfl⟩, fun i d hd hbegun => ⟨d, ?_, hbegun⟩⟩
      · rw [Compiler.define, List.getElem?_append_left (List.getElem?_eq_some_iff.1 hd).1]
        exact hd
      · exact (getElem?_define hd).resolve_right fun hstatus => by simp [hbegun] at hstatus
    refine ⟨keeps_define h.keeps.1 name params returns body, hfollows, ?_⟩
    exact h.resolved.mono (.refl _ _) (fun decl => mem_declarations_define) fun id => Or.imp_left hfollows.awaited
  lower h _ hadvances := h.of_eq hadvances.grows (by rw [hadvances.rest]) hadvances.awaiting

/-- What was built calls subroutines that are declared or will be. -/
theorem BuiltFrom.resolved {K : Compiler σ → Compiler σ → Prop} {d : Definition σ} {decl : Declaration}
    (h : BuiltFrom K d c decl c') :
    decl.fragment.Resolved c'.graph fun id => c'.Awaited id ∨ decl.body.CallsRaw id := by
  obtain ⟨params, c₁, c₂, c₃, code, -, -, -, -, hcode, hlower, rfl⟩ := h
  obtain ⟨hencloses, hentry⟩ := (lower_encloses code.owns_callsRaw { c₂ with current := some d.handle }).of_ok hlower
  refine ⟨_, _, hentry, le_refl _, hencloses.imp fun op hop id hid => ?_⟩
  rcases hop with hown | ⟨id', hid', hawaited⟩
  · exact .inr (callsRaw_withReturn (callsRaw_prologue hcode (hown id hid)))
  · cases hid.symm.trans hid'
    exact .inl hawaited

/-! ### Declarations that begin and end -/

theorem id_eq_of_toNat {id id' : SubroutineId} (h : id.number.toNat = id'.number.toNat) : id = id' := by
  obtain ⟨n⟩ := id
  obtain ⟨n'⟩ := id'
  obtain rfl : n = n' := UInt32.toNat_inj.1 h
  rfl

section Statuses

variable {s : Subroutine} {d : Definition σ} {status : Status}

/-- Noting the end of a declaration, or taking back its beginning, concerns one subroutine only. -/
theorem awaited_withStatus {id : SubroutineId} (h : c.Awaited id) (hstatus : status ≠ .undeclared ∨ id ≠ s.id) :
    (c.withStatus s status).Awaited id := by
  rcases h with hwaits | ⟨d, hd, hbegun⟩
  · exact .inl hwaits
  · by_cases hid : s.id.number.toNat = id.number.toNat
    · refine .inr ⟨{ d with status }, ?_, hstatus.resolve_right fun hne => hne (id_eq_of_toNat hid).symm⟩
      rw [getElem?_withStatus, if_pos hid, hd, Option.map_some]
    · refine .inr ⟨d, ?_, hbegun⟩
      rwa [getElem?_withStatus, if_neg hid]

/-- A declaration that has been noted as begun, and then as ended in either way, leaves nothing begun. -/
theorem Follows.around (hd : c.definitions[s.id.number.toNat]? = some d) (hundeclared : d.status = .undeclared)
    (h : (c.withStatus s .declaring).Follows c') (hended : status ≠ .declaring) : c.Follows (c'.withStatus s status) := by
  refine ⟨h.awaiting, fun i d₁ hd₁ hstatus => ?_, fun i d₄ hd₄ hbegun => ?_⟩
  · have hi : s.id.number.toNat ≠ i := by
      rintro rfl
      obtain rfl := Option.some.inj (hd.symm.trans hd₁)
      exact hstatus hundeclared
    obtain ⟨d₃, hd₃, heq⟩ := h.statuses i d₁ (by rwa [getElem?_withStatus, if_neg hi]) hstatus
    exact ⟨d₃, by rwa [getElem?_withStatus, if_neg hi], heq⟩
  · rw [getElem?_withStatus] at hd₄
    split at hd₄
    · obtain ⟨d', -, rfl⟩ := Option.map_eq_some_iff.1 hd₄
      exact absurd hbegun hended
    · rename_i hi
      obtain ⟨d₂, hd₂, hbegun₂⟩ := h.begun i d₄ hd₄ hbegun
      rw [getElem?_withStatus, if_neg hi] at hd₂
      exact ⟨d₂, hd₂, hbegun₂⟩

/-- The beginning of a declaration leaves those that were made as they are. -/
theorem declarations_begin (hd : c.definitions[s.id.number.toNat]? = some d) (hundeclared : d.status = .undeclared) :
    (c.withStatus s .declaring).declarations = c.declarations := by
  unfold withStatus declarations
  dsimp only
  generalize s.id.number.toNat = i at hd
  generalize c.definitions = l at hd
  induction l generalizing i with
  | nil => cases hd
  | cons a l ih =>
    cases i with
    | zero =>
      cases hd
      rw [List.modify_zero_cons, List.filterMap_cons, List.filterMap_cons, hundeclared]
    | succ i => rw [List.modify_succ_cons, List.filterMap_cons, List.filterMap_cons, ih i hd]

/-- A subroutine whose declaration has begun is awaited. -/
theorem Resolved.begin (h : c.Resolved fun id => excused id ∨ id = s.id)
    (hd : c.definitions[s.id.number.toNat]? = some d) : (c.withStatus s .declaring).Resolved excused := by
  refine h.mono (.refl _ _) (fun decl hdecl => (mem_declarations_withStatus hdecl).resolve_right (by simp)) ?_
  rintro id (hid | hid | rfl)
  · exact .inl (awaited_withStatus hid (.inl (by simp)))
  · exact .inr hid
  · refine .inl (.inr ⟨{ d with status := .declaring }, ?_, by simp⟩)
    rw [getElem?_withStatus, if_pos rfl, hd, Option.map_some]

theorem Resolved.declared (h : c.Resolved excused) {decl : Declaration}
    (hdecl : decl.fragment.Resolved c.graph fun id => c.Awaited id ∨ decl.body.CallsRaw id) :
    (c.withStatus s (.declared decl)).Resolved excused := by
  have hawaited : ∀ id, c.Awaited id → (c.withStatus s (.declared decl)).Awaited id :=
    fun id hid => awaited_withStatus hid (.inl (by simp))
  intro decl' hdecl'
  rcases mem_declarations_withStatus hdecl' with hold | hnew
  · exact (h decl' hold).mono (.refl _ _) fun id => Or.imp_left (Or.imp_left (hawaited id))
  · cases hnew
    exact hdecl.mono (.refl _ _) fun id => Or.imp_left fun hid => .inl (hawaited id hid)

/-- An abandoned subroutine is missed by none of the declarations if it is excused. -/
theorem Resolved.abandon (h : c.Resolved excused) (hs : excused s.id) :
    (c.withStatus s .undeclared).Resolved excused := by
  refine h.mono (.refl _ _) (fun decl hdecl => (mem_declarations_withStatus hdecl).resolve_right (by simp)) ?_
  rintro id (hid | hid)
  · by_cases heq : id = s.id
    · exact .inr (heq ▸ hs)
    · exact .inl (awaited_withStatus hid (.inr heq))
  · exact .inr hid

/-- Declarations with the same number are the same. -/
theorem Sound.declaration_eq (h : c.Sound) {decl decl' : Declaration} (hdecl : decl ∈ c.declarations)
    (hdecl' : decl' ∈ c.declarations) (hid : decl.subroutine.id = decl'.subroutine.id) : decl = decl' := by
  obtain ⟨i, d, hd, hstatus⟩ := mem_declarations.1 hdecl
  obtain ⟨j, d', hd', hstatus'⟩ := mem_declarations.1 hdecl'
  obtain ⟨hi, hsub, -⟩ := h i d decl hd hstatus
  obtain ⟨hj, hsub', -⟩ := h j d' decl' hd' hstatus'
  have hij : i = j := by rw [← hi, ← hj, ← hsub, ← hsub', hid]
  subst hij
  obtain rfl := Option.some.inj (hd.symm.trans hd')
  cases hstatus.symm.trans hstatus'
  rfl

/-- An abandoned subroutine is missed by none of the declarations if none was made on the way. -/
theorem Resolved.abandon_of_none (h : c.Resolved excused) (hfollows : c.Follows (c'.withStatus s .undeclared))
    (hgrows : Grows c.graph.size c.graph c'.graph) (hsound : c'.Sound)
    (hsame : c'.declaredIds = c.declaredIds) : (c'.withStatus s .undeclared).Resolved excused := by
  refine h.mono hgrows (fun decl hdecl => ?_) fun id => Or.imp_left hfollows.awaited
  have hdecl' : decl ∈ c'.declarations := (mem_declarations_withStatus hdecl).resolve_right (by simp)
  have hid : decl.subroutine.id ∈ c.declaredIds := hsame ▸ List.mem_map_of_mem hdecl'
  obtain ⟨old, hold, heq⟩ := List.mem_map.1 hid
  have hold' : old ∈ c'.declarations :=
    (mem_declarations_withStatus (hfollows.declarations hold)).resolve_right (by simp)
  exact hsound.declaration_eq hold' hdecl' heq ▸ hold

end Statuses

end Compiler

end ScratchMachine
