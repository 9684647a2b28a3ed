import ScratchMachine.Proofs.Worklist

/-!
# Who owns the slots of parameters

The slot of a parameter is written in one place of a program only: where the code of its subroutine begins.  For it is
none of the slots of the variables that hosts are given, and the operations of a program on slots are those that hosts
have written, and those that store arguments.

* `Accounts`: how the slots that were handed out are shared among variables and parameters.
* `Moment.accounted_of_leads`: they are so at every moment.
* `Declaration.Guarded`: the operations on slots in the code of a subroutine.
* `Compiler.parameter_slots_owned`: the slots of the parameters in a program.
-/

namespace ScratchMachine

open BlockGraph Fallible Declaring

/-! ### Sharing slots -/

namespace Event

/-- The slot of the variable that a host gets. -/
def givenSlots : Event → List UInt64
  | given v => v.ownSlot?.toList
  | invoked _ _ => []

/-- The slots of the parameters of the body that a host has to build. -/
def heldSlots : Event → List UInt64
  | given _ => []
  | invoked _ holders => holders.filterMap Variable.ownSlot?

end Event

/-- The slots that the variables of hosts own. -/
def givenSlots (events : List Event) : List UInt64 := events.flatMap Event.givenSlots

/-- The slots of parameters. -/
def heldSlots (events : List Event) : List UInt64 := events.flatMap Event.heldSlots

@[simp] theorem givenSlots_append (events events' : List Event) :
    givenSlots (events ++ events') = givenSlots events ++ givenSlots events' := List.flatMap_append

@[simp] theorem heldSlots_append (events events' : List Event) :
    heldSlots (events ++ events') = heldSlots events ++ heldSlots events' := List.flatMap_append

theorem mem_givenSlots {events : List Event} {i : UInt64} :
    i ∈ givenSlots events ↔ ∃ v, .given v ∈ events ∧ v.ownSlot? = some i := by
  unfold givenSlots
  rw [List.mem_flatMap]
  constructor
  · rintro ⟨_ | _, hevent, hi⟩
    · exact ⟨_, hevent, by simpa [Event.givenSlots] using hi⟩
    · cases hi
  · rintro ⟨v, hevent, hi⟩
    exact ⟨_, hevent, by simp [Event.givenSlots, hi]⟩

/-- Of the slots handed out, some are owned by the variables of hosts and others by parameters, of which no two have the
same. -/
structure Accounts (capacity : UInt64) (events : List Event) (r : SlotAllocator) : Prop where
  valid : r.Valid capacity
  given : ∀ i ∈ givenSlots events, i ∈ r.pooled ∨ i ∈ r.reserved
  held : heldSlots events ⊆ r.pooled
  nodup : (heldSlots events).Nodup
  apart : ∀ i ∈ givenSlots events, i ∉ heldSlots events

namespace Accounts

variable {capacity : UInt64} {events : List Event} {r r' : SlotAllocator}

theorem comes (h : Accounts capacity events r) (hcomes : r.Comes r') : Accounts capacity events r' := by
  have hpooled := hcomes.grows.pooled
  refine ⟨hcomes.valid h.valid, fun i hi => ?_, List.Subset.trans h.held hpooled, h.nodup, h.apart⟩
  exact (h.given i hi).imp (fun hmem => hpooled hmem) fun hmem => hcomes.reserved hmem

theorem lt (h : Accounts capacity events r) {i : UInt64} (hi : i ∈ givenSlots events ∨ i ∈ heldSlots events) :
    i < capacity :=
  h.valid.lt (hi.elim (h.given i) fun hi => .inl (h.held hi))

/-- The slot of a new variable is not that of a parameter. -/
theorem give (h : Accounts capacity events r) (hcomes : r.Comes r') {v : Variable}
    (hv : ∀ i, v.ownSlot? = some i → i ∉ r.pooled ∧ (i ∈ r'.pooled ∨ i ∈ r'.reserved)) :
    Accounts capacity (events ++ [.given v]) r' := by
  have h' := h.comes hcomes
  have hheld : heldSlots (events ++ [.given v]) = heldSlots events := by
    rw [heldSlots_append]
    exact List.append_nil _
  have hgranted : ∀ i ∈ givenSlots (events ++ [.given v]),
      i ∈ givenSlots events ∨ v.ownSlot? = some i := by
    intro i hi
    rw [givenSlots_append, List.mem_append] at hi
    exact hi.imp_right fun hi => by simpa [givenSlots, Event.givenSlots] using hi
  refine ⟨h'.valid, fun i hi => ?_, by rw [hheld]; exact h'.held, by rw [hheld]; exact h'.nodup, fun i hi => ?_⟩
  · exact (hgranted i hi).elim (h'.given i) fun hi => (hv i hi).2
  · rw [hheld]
    exact (hgranted i hi).elim (h.apart i) fun hi hmem => (hv i hi).1 (h.held hmem)

/-- New parameters have slots that nothing has had before. -/
theorem invoke (h : Accounts capacity events r) (hcomes : r.Comes r') (s : Subroutine) {holders : List Variable}
    (hnodup : (holders.filterMap Variable.ownSlot?).Nodup)
    (hnew : ∀ i ∈ holders.filterMap Variable.ownSlot?, i ∈ r'.pooled ∧ i ∉ r.pooled ∧ i ∉ r.reserved) :
    Accounts capacity (events ++ [.invoked s holders]) r' := by
  have h' := h.comes hcomes
  have hgranted : givenSlots (events ++ [.invoked s holders]) = givenSlots events := by
    rw [givenSlots_append]
    exact List.append_nil _
  have hheld : heldSlots (events ++ [.invoked s holders]) =
      heldSlots events ++ holders.filterMap Variable.ownSlot? := by
    rw [heldSlots_append]
    exact congrArg _ (List.append_nil _)
  refine ⟨h'.valid, by rw [hgranted]; exact h'.given, ?_, ?_, ?_⟩
  · rw [hheld]
    exact List.append_subset.2 ⟨h'.held, fun i hi => (hnew i hi).1⟩
  · rw [hheld, List.nodup_append]
    refine ⟨h.nodup, hnodup, fun i hi j hj heq => ?_⟩
    subst heq
    exact (hnew i hj).2.1 (h.held hi)
  · rw [hgranted, hheld]
    intro i hi hmem
    rcases List.mem_append.1 hmem with hmem | hmem
    · exact h.apart i hi hmem
    · exact (h.given i hi).elim (hnew i hmem).2.1 (hnew i hmem).2.2

end Accounts

namespace Moment

variable {σ : Type} {m m' : Moment σ} {options : Options} {events happened : List Event}

open Compiler

/-- The slots that were handed out by then are shared as they should be, and parameters have theirs from when the body was
asked for. -/
structure Accounted (options : Options) (events : List Event) (m : Moment σ) : Prop where
  same : m.compiler.options = options
  slots : Accounts options.slotCount events m.compiler.slots
  ongoing : ∀ o ∈ m.ongoing, .invoked o.sub o.holders ∈ events
  declared : ∀ decl ∈ m.compiler.declarations, .invoked decl.subroutine decl.holders ∈ events

theorem Accounted.mono (h : Accounted options events m) (hoptions : m'.compiler.options = m.compiler.options)
    (hslots : m.compiler.slots.Comes m'.compiler.slots) (hongoing : m'.ongoing ⊆ m.ongoing)
    (hdecls : m'.compiler.declarations ⊆ m.compiler.declarations) : Accounted options events m' :=
  ⟨hoptions.trans h.same, h.slots.comes hslots, fun o ho => h.ongoing o (hongoing ho), fun decl hdecl =>
    h.declared decl (hdecls hdecl)⟩

theorem Accounted.allots (h : Accounted options events m) (hallots : m.compiler.Allots m'.compiler)
    (hongoing : m'.ongoing ⊆ m.ongoing) : Accounted options events m' := by
  refine h.mono ?_ hallots.slots hongoing ?_
  · rw [hallots.rest]
  · rw [hallots.rest]
    exact List.Subset.refl _

theorem Accounted.advances {n : Nat} (h : Accounted options events m) (hadvances : Advances n m.compiler m'.compiler)
    (hongoing : m'.ongoing ⊆ m.ongoing) : Accounted options events m' := by
  refine h.mono ?_ ?_ hongoing ?_
  · rw [hadvances.rest]
  · rw [hadvances.rest]
    exact .refl _
  · rw [hadvances.rest]
    exact List.Subset.refl _

/-- The status of a subroutine says nothing of slots, as long as it is not declared. -/
theorem Accounted.noted {c : Compiler σ} {task task' : Task σ} {ongoing : List (Ongoing σ)} {s : Subroutine}
    {status : Status} (h : Accounted options events ⟨c, task, ongoing⟩) (hstatus : ∀ decl, status ≠ .declared decl) :
    Accounted options events ⟨c.withStatus s status, task', ongoing⟩ :=
  h.mono rfl (.refl _) (List.Subset.refl _) fun decl hdecl =>
    (mem_declarations_withStatus hdecl).resolve_right (hstatus decl)

theorem accounted_of_move (hmove : Move m happened m') (h : Accounted options events m) :
    Accounted options (events ++ happened) m' := by
  cases hmove with
  | @gives c c' type request target next v ongoing hnew =>
    have hallots := allots_newVariable hnew
    have howns := (newVariable_owns _ _ _ h.slots.valid.ordered).of_ok hnew
    have hmoved : Accounted options events ⟨c', .settle, ongoing⟩ := h.allots hallots (List.Subset.refl _)
    exact ⟨hmoved.same, h.slots.give hallots.slots howns, fun o ho => List.mem_append_left _ (h.ongoing o ho),
      fun decl hdecl => List.mem_append_left _ (hmoved.declared decl hdecl)⟩
  | answers hquiet =>
    rw [List.append_nil]
    cases hquiet with
    | allots hallots => exact h.allots hallots (List.Subset.refl _)
    | define => exact h.mono rfl (.refl _) (List.Subset.refl _) fun _ => mem_declarations_define
    | lowers _ hadvances => exact h.advances hadvances (List.Subset.refl _)
    | host => exact h.mono rfl (.refl _) (List.Subset.refl _) (List.Subset.refl _)
  | turns pending =>
    rw [List.append_nil]
    exact h.mono rfl (.refl _) (List.Subset.refl _) (List.Subset.refl _)
  | replies answer =>
    rw [List.append_nil]
    exact h.mono rfl (.refl _) (List.Subset.refl _) (List.Subset.refl _)
  | @refuses c c' s d next ongoing e _ _ hparams =>
    rw [List.append_nil]
    have hbegun : Accounted options events ⟨c.withStatus s .declaring, .settle, ongoing⟩ := h.noted (by simp)
    have hbound : Accounted options events ⟨c', .settle, ongoing⟩ :=
      hbegun.allots (allots_bindParams hparams) (List.Subset.refl _)
    exact hbound.noted (by simp)
  | @begins c c' s d next ongoing params _ _ hparams =>
    have hallots := allots_bindParams hparams
    obtain ⟨hnodup, hnew⟩ := owns_of_bindParams hparams h.slots.valid
    have hbegun : Accounted options events ⟨c.withStatus s .declaring, .settle, ongoing⟩ := h.noted (by simp)
    have hbound : Accounted options events ⟨c', .settle, ongoing⟩ := hbegun.allots hallots (List.Subset.refl _)
    refine ⟨hbound.same, h.slots.invoke hallots.slots s hnodup hnew, fun o ho => ?_, fun decl hdecl =>
      List.mem_append_left _ (hbound.declared decl hdecl)⟩
    rcases List.mem_cons.1 ho with rfl | ho
    · exact List.mem_append_right _ (List.mem_singleton.2 rfl)
    · exact List.mem_append_left _ (h.ongoing o ho)
  | @ends c c' built o ongoing answer hend =>
    rw [List.append_nil]
    have hended : Accounted options events ⟨c', .settle, ongoing⟩ :=
      h.advances (advances_conclude hend) (List.subset_cons_self _ _)
    cases answer with
    | error e => exact hended.noted (by simp)
    | ok decl =>
      refine ⟨hended.same, hended.slots, hended.ongoing, fun decl' hdecl' => ?_⟩
      rcases mem_declarations_withStatus hdecl' with hold | hnew
      · exact hended.declared decl' hold
      · cases hnew
        obtain ⟨-, hsub, hholders, -⟩ := conclude_eq_ok hend
        rw [hsub, hholders]
        exact h.ongoing o (List.mem_cons_self ..)

/-- Nothing has been handed out by a new compiler. -/
theorem accounted_of_create {key : Nat} {host : σ} {c : Compiler σ} (h : create key options host = .ok c)
    (task : Task σ) :
    Accounted options [] ⟨c, task, []⟩ := by
  obtain ⟨-, -, h⟩ := except_bind_eq_ok.1 h
  cases h
  have hslots : Accounts options.slotCount [] (.empty options.slotCount) :=
    ⟨SlotAllocator.valid_empty _, by simp [givenSlots], by simp [heldSlots], .nil, by simp [givenSlots]⟩
  exact ⟨rfl, hslots, by simp, fun decl hdecl => nomatch hdecl⟩

/-- At every moment the slots are shared as they should be. -/
theorem accounted_of_leads (hleads : Leads m happened m') (h : Accounted options events m) :
    Accounted options (events ++ happened) m' := by
  induction hleads generalizing events with
  | here m =>
    rw [List.append_nil]
    exact h
  | step hstep _ ih =>
    rw [← List.append_assoc]
    exact ih (accounted_of_move (move_of_step hstep) h)

/-- They are so when all subroutines of a program have been declared. -/
theorem accounted_of_settles {root : Expr} {c c' : Compiler σ} (hsettles : Settles root c happened c') {task : Task σ}
    (h : Accounted options events ⟨c, task, []⟩) : Accounted options (events ++ happened) ⟨c', .settle, []⟩ := by
  obtain ⟨main, lowered, hlower, hleads⟩ := hsettles
  have hadvances := advances_lower hlower
  refine accounted_of_leads hleads (h.mono ?_ ?_ (List.Subset.refl _) ?_)
  · rw [hadvances.rest]
  · rw [hadvances.rest]
    exact .refl _
  · rw [hadvances.rest]
    exact List.Subset.refl _

end Moment

/-! ### Operations on slots -/

/-- The slot whose number stands in the operation. -/
def Operation.slot? : Operation → Option UInt64
  | load i | store i => some i
  | _ => none

namespace Expr

theorem hasOp_iff {e : Expr} {op : Operation} :
    e.HasOp op ↔ (∃ args type returns, e = .op op args type returns) ∨ ∃ part ∈ e.parts, part.HasOp op := by
  constructor
  · rintro ⟨args, type, returns, hwithin⟩
    cases hwithin with
    | here => exact .inl ⟨args, type, returns, rfl⟩
    | part hpart hwithin => exact .inr ⟨_, hpart, args, type, returns, hwithin⟩
  · rintro (⟨args, type, returns, rfl⟩ | ⟨part, hpart, args, type, returns, hwithin⟩)
    · exact ⟨args, type, returns, .here⟩
    · exact ⟨args, type, returns, .part hpart hwithin⟩

@[simp] theorem hasOp_int {n : UInt64} {op : Operation} : ¬ (Expr.int n).HasOp op := by
  rw [hasOp_iff]
  simp [parts]

@[simp] theorem hasOp_ofOp {o op : Operation} {args : List Expr} {type : ValueType} :
    (Expr.ofOp o args type).HasOp op ↔ op = o ∨ ∃ e ∈ args, e.HasOp op := by
  rw [hasOp_iff]
  simp [ofOp, parts, eq_comm]

@[simp] theorem hasOp_seq {items : List Expr} {op : Operation} :
    (Expr.seq items).HasOp op ↔ ∃ e ∈ items, e.HasOp op := by
  rw [hasOp_iff]
  simp [parts]

@[simp] theorem hasOp_call {callee : Subroutine} {args : List Arg} {op : Operation} :
    (Expr.call callee args).HasOp op ↔ ∃ a ∈ args, a.pushed.HasOp op := by
  rw [hasOp_iff]
  simp [parts]

/-- An expression becomes only those operations on slots that are its nodes. -/
theorem owns_hasOp (e : Expr) : e.Everywhere (Compiler.Owns fun op => op.slot? ≠ none → e.HasOp op) := by
  refine everywhere_of_within fun q hq => ?_
  cases q with
  | op o args type returns => exact fun _ => ⟨args, type, returns, hq⟩
  | _ => simp [Compiler.Owns, Operation.slot?]

end Expr

/-- The code of a declaration stores the arguments, and whatever else it does with slots is in its body. -/
def Declaration.Guarded (decl : Declaration) (g : BlockGraph) : Prop :=
  g.Prefaced decl.fragment.entry (decl.slots.reverse.map .store) fun op => op.slot? ≠ none → decl.body.HasOp op

namespace Compiler

variable {σ : Type} {c c' : Compiler σ}

/-- Calls are no operations on slots. -/
theorem hasOp_of_owns {e : Expr} {op : Operation}
    (h : (op.slot? ≠ none → e.HasOp op) ∨ ∃ id, op = .callsub id) (hslot : op.slot? ≠ none) : e.HasOp op := by
  rcases h with h | ⟨id, rfl⟩
  · exact h hslot
  · exact absurd rfl hslot

theorem BuiltFrom.guarded {K : Compiler σ → Compiler σ → Prop} {d : Definition σ} {decl : Declaration}
    (h : BuiltFrom K d c decl c') : decl.Guarded c'.graph := by
  obtain ⟨params, c₁, c₂, c₃, code, hparams, -, -, hholders, hcode, hlower, rfl⟩ := h
  obtain ⟨-, slots, hpooled⟩ := (bindParams_ensures d.handle.params c).of_ok hparams
  rw [← hholders] at hpooled
  obtain rfl : decl.slots = slots := filterMap_of_map_eq hpooled.ownSlots
  rw [prologue_eq hpooled.ownSlots hcode] at hlower
  have hprefaced := (lower_prologue (Expr.owns_hasOp _) _).of_ok hlower
  exact hprefaced.imp fun op hop hslot => hasOp_withReturn (hasOp_of_owns hop hslot)

theorem enduring_guarded : Enduring fun c c' : Compiler σ =>
    c.Keeps c' ∧ ∀ decl ∈ c'.declarations, decl.Guarded c'.graph :=
  enduring_of_built (fun h hgrows => h.mono hgrows) fun hbuilt => hbuilt.guarded

/-- In a compilation the operations on slots are those of the main program, those of the bodies, and those that store
arguments. -/
theorem compile_guarded (hc : c.Sound) (hdecls : ∀ decl ∈ c.declarations, decl.Guarded c.graph) {limit : Nat} {root : Expr}
    {compilation : Compilation} (hcompile : (compile limit root).run.run c = some (.ok compilation, c')) :
    (compilation.graph.Prefaced compilation.main.entry [] fun op => op.slot? ≠ none → root.HasOp op) ∧
      ∀ decl ∈ compilation.declarations, decl.Guarded compilation.graph := by
  obtain ⟨⟨lowered, hlower, hgrows⟩, hguarded⟩ := built_of_compile enduring_guarded hc hdecls hcompile
  obtain ⟨hencloses, hentry⟩ := (lower_encloses root.owns_hasOp { c with current := none }).of_ok hlower
  have hmain : lowered.graph.Prefaced compilation.main.entry [] fun op => op.slot? ≠ none → root.HasOp op :=
    ⟨_, _, _, .here _, hentry, le_refl _, hencloses.imp fun op hop => hasOp_of_owns (permits_own hop)⟩
  exact ⟨hmain.mono hgrows, hguarded⟩

end Compiler

/-! ### Assembled programs -/

/-- The operation at a place of a code object. -/
def Program.op? (p : Program) (n k : Nat) : Option Operation := do (← p.code[n]?).ops[k]?

theorem getElem?_reverse_eq_some_iff {α : Type} {l : List α} (hnodup : l.Nodup) {j k : Nat} {a : α}
    (hj : l[j]? = some a) : l.reverse[k]? = some a ↔ k + j + 1 = l.length := by
  have hlt := (List.getElem?_eq_some_iff.1 hj).1
  by_cases hk : k < l.length
  · rw [List.getElem?_reverse hk, ← hj, List.getElem?_inj (by omega) hnodup]
    omega
  · rw [List.getElem?_eq_none (by simpa using hk)]
    simp only [reduceCtorEq, false_iff]
    omega

/-- No two declarations have a slot in common. -/
theorem Declaration.eq_of_mem_slots {decls : List Declaration} (hslots : (decls.flatMap Declaration.slots).Nodup) {m m' : Nat}
    {d d' : Declaration} (hd : decls[m]? = some d) (hd' : decls[m']? = some d') {slot : UInt64} (hslot : slot ∈ d.slots)
    (hslot' : slot ∈ d'.slots) : m = m' := by
  obtain ⟨hlt, rfl⟩ := List.getElem?_eq_some_iff.1 hd
  obtain ⟨hlt', rfl⟩ := List.getElem?_eq_some_iff.1 hd'
  have hdisjoint := List.pairwise_iff_getElem.1 (List.nodup_flatMap.1 hslots).2
  rcases Nat.lt_trichotomy m m' with hbefore | heq | hafter
  · exact absurd hslot' (hdisjoint m m' hlt hlt' hbefore hslot)
  · exact heq
  · exact absurd hslot (hdisjoint m' m hlt' hlt hafter hslot')

namespace Compilation

section Assembled

variable {compilation : Compilation} {program : Program} (hassemble : compilation.assemble = .ok program)

include hassemble

/-- The code object of a declaration stands at its place, after the main one. -/
theorem exists_code {m : Nat} {d : Declaration} (hd : compilation.declarations[m]? = some d) :
    ∃ ops, compilation.graph.linearize d.fragment.entry = .ok ops ∧
      program.code[m + 1]? = some ⟨d.subroutine.name, ops.toArray⟩ := by
  obtain ⟨main, subs, -, hcode, hsubs⟩ := Compiler.code_of_assemble hassemble
  obtain ⟨hlength, hall⟩ := List.forall₂_iff_get.1 hsubs
  obtain ⟨hlt, rfl⟩ := List.getElem?_eq_some_iff.1 hd
  obtain ⟨ops, hops, hobject⟩ := except_bind_eq_ok.1 (hall m hlt (hlength ▸ hlt))
  refine ⟨ops, hops, ?_⟩
  rw [hcode, List.getElem?_cons_succ, List.getElem?_eq_getElem (hlength ▸ hlt)]
  exact congrArg some (Except.ok.inj hobject).symm

/-- An operation on a slot has been written by a host, or it stores an argument where the code of a subroutine begins. -/
theorem origin_of_op? {root : Expr}
    (hmain : compilation.graph.Prefaced compilation.main.entry [] fun op => op.slot? ≠ none → root.HasOp op)
    (hdecls : ∀ decl ∈ compilation.declarations, decl.Guarded compilation.graph) {n k : Nat} {op : Operation}
    (hop : program.op? n k = some op) (hslot : op.slot? ≠ none) :
    (root.HasOp op ∨ ∃ d ∈ compilation.declarations, d.body.HasOp op) ∨
      ∃ m d, n = m + 1 ∧ compilation.declarations[m]? = some d ∧ (d.slots.reverse.map .store)[k]? = some op := by
  have hjump : op.isJump ≠ true := by
    intro hjump
    cases op <;> first | exact hslot rfl | cases hjump
  obtain ⟨object, hobject, hop⟩ := Option.bind_eq_some_iff.1 hop
  cases n with
  | zero =>
    obtain ⟨main, subs, hlinear, hcode, -⟩ := Compiler.code_of_assemble hassemble
    rw [hcode] at hobject
    cases hobject
    rw [List.getElem?_toArray] at hop
    rcases hmain.getElem?_linearize hlinear hop with hline | hjump' | hop
    · cases hline
    · exact absurd hjump' hjump
    · exact .inl (.inl (hop hslot))
  | succ m =>
    cases hd : compilation.declarations[m]? with
    | none =>
      obtain ⟨main, subs, -, hcode, hsubs⟩ := Compiler.code_of_assemble hassemble
      rw [hcode, List.getElem?_cons_succ] at hobject
      have hlt := (List.getElem?_eq_some_iff.1 hobject).1
      rw [← hsubs.length_eq] at hlt
      exact absurd (List.getElem?_eq_none_iff.1 hd) (by omega)
    | some d =>
      obtain ⟨ops, hlinear, hcode⟩ := exists_code hassemble hd
      rw [hcode] at hobject
      cases hobject
      rw [List.getElem?_toArray] at hop
      have hmem := List.mem_of_getElem? hd
      rcases (hdecls d hmem).getElem?_linearize hlinear hop with hline | hjump' | hop
      · exact .inr ⟨m, d, rfl, hd, hline⟩
      · exact absurd hjump' hjump
      · exact .inl (.inr ⟨d, hmem, hop hslot⟩)

/-- The code of a subroutine begins with storing its arguments. -/
theorem op?_of_guarded {m k : Nat} {d : Declaration} {op : Operation} (hd : compilation.declarations[m]? = some d)
    (hguarded : d.Guarded compilation.graph) (hop : (d.slots.reverse.map .store)[k]? = some op) :
    program.op? (m + 1) k = some op := by
  obtain ⟨ops, hlinear, hcode⟩ := exists_code hassemble hd
  obtain ⟨last, -, -, hline, -⟩ := hguarded
  rw [Program.op?, hcode]
  show ops.toArray[k]? = some op
  rw [List.getElem?_toArray]
  exact hline.getElem?_linearize hlinear hop

/-- A slot that no host writes and no other parameter has is written once. -/
theorem op?_eq_store_iff {root : Expr}
    (hmain : compilation.graph.Prefaced compilation.main.entry [] fun op => op.slot? ≠ none → root.HasOp op)
    (hdecls : ∀ decl ∈ compilation.declarations, decl.Guarded compilation.graph)
    (hslots : (compilation.declarations.flatMap Declaration.slots).Nodup) {m j : Nat} {d : Declaration} {slot : UInt64}
    (hd : compilation.declarations[m]? = some d) (hj : d.slots[j]? = some slot) (hroot : ¬ root.HasOp (.store slot))
    (hbodies : ∀ d' ∈ compilation.declarations, ¬ d'.body.HasOp (.store slot)) {n k : Nat} :
    program.op? n k = some (.store slot) ↔ n = m + 1 ∧ k + j + 1 = d.slots.length := by
  have hnodup := (List.nodup_flatMap.1 hslots).1
  have hmem := List.mem_of_getElem? hd
  have hline : ∀ {d' : Declaration} {k : Nat},
      (d'.slots.reverse.map Operation.store)[k]? = some (.store slot) ↔ d'.slots.reverse[k]? = some slot := by
    intro d' k
    rw [List.getElem?_map]
    cases d'.slots.reverse[k]? <;> simp
  constructor
  · intro hop
    rcases origin_of_op? hassemble hmain hdecls hop (by simp [Operation.slot?]) with (hop | ⟨d', hd', hop⟩) | hstored
    · exact absurd hop hroot
    · exact absurd hop (hbodies d' hd')
    · obtain ⟨m', d', rfl, hd', hop⟩ := hstored
      rw [hline] at hop
      have hmem' : slot ∈ d'.slots := List.mem_reverse.1 (List.mem_of_getElem? hop)
      obtain rfl : m' = m := Declaration.eq_of_mem_slots hslots hd' hd hmem' (List.mem_of_getElem? hj)
      obtain rfl := Option.some.inj (hd.symm.trans hd')
      exact ⟨rfl, (getElem?_reverse_eq_some_iff (hnodup d hmem) hj).1 hop⟩
  · rintro ⟨rfl, hk⟩
    exact op?_of_guarded hassemble hd (hdecls d hmem) (hline.2 ((getElem?_reverse_eq_some_iff (hnodup d hmem) hj).2 hk))

end Assembled

end Compilation

/-! ### The slots of parameters in a program -/

/-- The operations on slots in an expression are on those of the variables that hosts were given, but for reads of
parameters. -/
structure Expr.Accesses (events : List Event) (e : Expr) : Prop where
  stores : ∀ i, e.HasOp (.store i) → i ∈ givenSlots events
  loads : ∀ i, e.HasOp (.load i) → i ∈ givenSlots events ∨ i ∈ heldSlots events

theorem Expr.Accesses.mem {events : List Event} {e : Expr} (h : e.Accesses events) {op : Operation} {i : UInt64}
    (hop : e.HasOp op) (hi : op.slot? = some i) : i ∈ givenSlots events ∨ i ∈ heldSlots events := by
  cases op with
  | load j =>
    cases hi
    exact h.loads i hop
  | store j =>
    cases hi
    exact .inl (h.stores i hop)
  | _ => cases hi

namespace Compiler

variable {σ : Type}

/-- In a program no two parameters have the same slot. -/
theorem slots_nodup {root : Expr} {compilation : Compilation} (hcompiled : Compiled root compilation)
    (hnodup : ∀ d ∈ compilation.declarations, d.slots.Nodup)
    (hapart : ∀ d ∈ compilation.declarations, ∀ d' ∈ compilation.declarations, ∀ slot ∈ d.slots, slot ∈ d'.slots →
      d = d') :
    (compilation.declarations.flatMap Declaration.slots).Nodup := by
  refine List.nodup_flatMap.2 ⟨hnodup, hcompiled.ascending.imp_of_mem fun {d d'} hd hd' hlt slot hslot hslot' => ?_⟩
  obtain rfl := hapart d hd d' hd' slot hslot hslot'
  exact absurd hlt (lt_irrefl _)

/-- Follow a host from a new compiler on, and then a compilation.  Let the expressions of the program be made of the
variables that hosts were given meanwhile, and of reads of parameters.  Then all slots accessed by number exist; the slots
of all parameters differ from each other and from those of the variables; and the only operation that writes the slot of a
parameter by number is the one that stores the argument, at its place where the code of the subroutine begins. -/
theorem parameter_slots_owned {key : Nat} {options : Options} {host : σ} {created : Compiler σ}
    (hcreate : create key options host = .ok created) {script : Builder σ} {past : List Event} {c : Compiler σ}
    {task : Task σ} (hpast : Moment.Leads ⟨created, .host script, []⟩ past ⟨c, task, []⟩) {limit : Nat} {root : Expr}
    {compilation : Compilation} {c' : Compiler σ}
    (hcompile : (compile limit root).run.run c = some (.ok compilation, c')) {later : List Event}
    (hlater : Moment.Settles root c later c') (hroot : root.Accesses (past ++ later))
    (hbodies : ∀ d ∈ compilation.declarations, d.body.Accesses (past ++ later)) {program : Program}
    (hassemble : compilation.assemble = .ok program) :
    (∀ n k op i, program.op? n k = some op → op.slot? = some i → i < options.slotCount) ∧
    ((∀ d ∈ compilation.declarations, d.holders.map (·.ownSlot?) = d.slots.map some) ∧
      (compilation.declarations.flatMap Declaration.slots).Nodup ∧
      ∀ v i, .given v ∈ past ++ later → v.ownSlot? = some i → i ∉ compilation.declarations.flatMap Declaration.slots) ∧
    ∀ m d, compilation.declarations[m]? = some d → program.subroutine? d.subroutine.id = program.code[m + 1]? ∧
      ∀ j slot, d.slots[j]? = some slot → ∀ n k,
        program.op? n k = some (.store slot) ↔ n = m + 1 ∧ k + j + 1 = d.slots.length := by
  have haccounted := Moment.accounted_of_settles hlater
    (Moment.accounted_of_leads hpast (Moment.accounted_of_create hcreate _))
  rw [List.nil_append] at haccounted
  have hcreated := Reachable.create hcreate
  have hfurnishes := (Moment.holds_of_leads enduring_furnishes hpast (.idle hcreated.furnishes)).state enduring_furnishes
  have hguarded := (Moment.holds_of_leads enduring_guarded hpast
    (.idle ⟨hcreated.sound.keeps, fun decl hdecl => by rw [no_declarations hcreate] at hdecl; cases hdecl⟩)).state
      enduring_guarded
  have hcompiled := (compile_ensures hguarded.1.1 limit root).of_ok hcompile
  obtain ⟨hmain, hdecls⟩ := compile_guarded hguarded.1.1 hguarded.2 hcompile
  obtain ⟨hfurnished, hapart⟩ := compile_furnished hfurnishes hcompile
  have hslots := slots_nodup hcompiled (fun d hd => (hfurnished d hd).nodup) hapart
  obtain ⟨-, hsame⟩ := (compile_state limit root c).of_ok hcompile
  have hheld : ∀ d ∈ compilation.declarations, ∀ i ∈ d.slots, i ∈ heldSlots (past ++ later) := fun d hd i hi =>
    List.mem_flatMap.2 ⟨_, haccounted.declared d (hsame ▸ hd), hi⟩
  have hunwritten : ∀ {e : Expr}, e.Accesses (past ++ later) → ∀ d ∈ compilation.declarations, ∀ i ∈ d.slots,
      ¬ e.HasOp (.store i) := fun he d hd i hi hop => haccounted.slots.apart i (he.stores i hop) (hheld d hd i hi)
  refine ⟨fun n k op i hop hi => ?_, ⟨fun d hd => (hfurnished d hd).holders, hslots, fun v i hv hi hmem => ?_⟩,
    fun m d hd => ⟨?_, fun j slot hj n k => ?_⟩⟩
  · rcases Compilation.origin_of_op? hassemble hmain hdecls hop (by simp [hi]) with (hop | ⟨d, hd, hop⟩) | ⟨m, d, -, hd, hstored⟩
    · exact haccounted.slots.lt (hroot.mem hop hi)
    · exact haccounted.slots.lt ((hbodies d hd).mem hop hi)
    · obtain ⟨slot, hslot, rfl⟩ := List.mem_map.1 (List.mem_of_getElem? hstored)
      cases hi
      have hmem := List.mem_of_getElem? hd
      exact haccounted.slots.lt (.inr (hheld d hmem _ (List.mem_reverse.1 hslot)))
  · obtain ⟨d, hd, hslot⟩ := List.mem_flatMap.1 hmem
    exact haccounted.slots.apart i (mem_givenSlots.2 ⟨v, hv, hi⟩) (hheld d hd i hslot)
  · have hsub := hcompiled.subroutine?_eq hassemble d.subroutine.id
    rw [hcompiled.declaration?_eq (List.mem_of_getElem? hd)] at hsub
    obtain ⟨ops, hops, hsub⟩ := hsub
    obtain ⟨ops', hops', hcode⟩ := Compilation.exists_code hassemble hd
    obtain rfl := Except.ok.inj (hops.symm.trans hops')
    rw [hsub, hcode]
  · have hmem := List.mem_of_getElem? hd
    have hslot := List.mem_of_getElem? hj
    exact Compilation.op?_eq_store_iff hassemble hmain hdecls hslots hd hj (hunwritten hroot d hmem slot hslot)
      fun d' hd' => hunwritten (hbodies d' hd') d hmem slot hslot

/-! ### A subroutine that keeps its argument -/

namespace Keeping

def handle : Subroutine := ⟨0, ⟨0⟩, "f", [⟨"x", .value, .uint64⟩], .uint64⟩

/-- The body keeps its argument in a variable of its own. -/
def body : Body Unit := fun _ handles => .newVariable .uint64 .pool none (.orFail fun w =>
  match handles with
  | [.value x] => .orFail (fun kept => .done (.seq [kept, w.load])) (w.store x)
  | _ => .done .err)

def created : Compiler Unit := { key := 0, options := {}, slots := .empty 256, host := () }

def outer : Variable := ⟨.uint64, .pooled 0, none⟩

def holder : Variable := ⟨.uint64, .pooled 1, none⟩

def copied : Variable := ⟨.uint64, .pooled 2, none⟩

def root : Expr := .seq [.ofOp (.store 0) [.int 5] .none, .call handle [.value (.ofOp (.load 0) [] .uint64)]]

def kept : Expr := .seq [.ofOp (.store 2) [.ofOp (.load 1) [] .uint64] .none, .ofOp (.load 2) [] .uint64]

def compiler : Compiler Unit :=
  { created with
    slots := { capacity := 256, next := 1, pooled := [0] }
    definitions := [⟨handle, body, .undeclared⟩] }

def lowered : Compiler Unit :=
  { compiler with
    graph := ⟨#[⟨[.int 5], .next ⟨1⟩⟩, ⟨[.store 0], .next ⟨2⟩⟩, ⟨[.load 0], .next ⟨3⟩⟩, ⟨[.callsub ⟨0⟩], .opened⟩]⟩
    pending := [handle] }

def graph : BlockGraph := ⟨#[⟨[.int 5], .next ⟨1⟩⟩, ⟨[.store 0], .next ⟨2⟩⟩, ⟨[.load 0], .next ⟨3⟩⟩,
    ⟨[.callsub ⟨0⟩], .opened⟩,
  ⟨[.store 1], .next ⟨5⟩⟩, ⟨[.load 1], .next ⟨6⟩⟩, ⟨[.store 2], .next ⟨7⟩⟩, ⟨[.load 2], .next ⟨8⟩⟩,
    ⟨[.retsub], .terminal⟩]⟩

def declaration : Declaration := ⟨handle, kept, ⟨⟨4⟩, none⟩, [holder]⟩

def after : Compiler Unit :=
  { created with
    slots := { capacity := 256, next := 3, pooled := [2, 1, 0] }
    definitions := [⟨handle, body, .declared declaration⟩]
    graph }

def compilation : Compilation where
  options := {}
  graph := graph
  main := ⟨⟨0⟩, some ⟨3⟩⟩
  declarations := [declaration]

def program : Program where
  code := [⟨"main", #[.int 5, .store 0, .load 0, .callsub ⟨0⟩]⟩,
    ⟨"f", #[.store 1, .load 1, .store 2, .load 2, .retsub]⟩]
  subroutines := .ofList [(⟨0⟩, 1)]

theorem lower_root : (lower root).run.run { compiler with current := none } = (.ok ⟨⟨0⟩, some ⟨3⟩⟩, lowered) := by
  cbv

theorem compile_root : (compile 2 root).run.run compiler = some (.ok compilation, after) := by
  cbv

theorem assemble_compilation : compilation.assemble = .ok program := by
  cbv


/-- What the host does when it has its variable. -/
def defining (v : Variable) : Builder Unit := .define "f" handle.params .uint64 body fun _ => .done v.load

def script : Builder Unit := .newVariable .uint64 .pool none (.orFail defining)

/-- The body is to be built. -/
def building : Compiler Unit :=
  { lowered with
    slots := { capacity := 256, next := 2, pooled := [1, 0] }
    definitions := [⟨handle, body, .declaring⟩]
    pending := [] }

def ongoing : Ongoing Unit := ⟨handle, [holder], .afterDeclaring⟩

theorem leads_compiler :
    Moment.Leads ⟨created, .host script, []⟩ ([.given outer] ++ ([] ++ []))
      ⟨compiler, .host (.done outer.load), []⟩ := by
  have hgiven : Moment.step ⟨created, .host script, []⟩ = some
      (⟨{ created with slots := compiler.slots }, .host (defining outer), []⟩, [.given outer]) := by cbv
  exact .step hgiven (.step rfl (.here _))

theorem settles_root :
    Moment.Settles root compiler ([] ++ ([.invoked handle [holder]] ++ ([.given copied] ++ ([] ++ [])))) after := by
  have hinvoked : Moment.step ⟨{ lowered with pending := [] }, .declare handle .afterDeclaring, []⟩ = some
      (⟨building, .host (body handle [.value holder.load]), [ongoing]⟩, [.invoked handle [holder]]) := by cbv
  have hgiven : Moment.step ⟨building, .host (body handle [.value holder.load]), [ongoing]⟩ = some
      (⟨{ building with slots := after.slots }, .host (.done kept), [ongoing]⟩, [.given copied]) := by cbv
  have hended : Moment.step ⟨{ building with slots := after.slots }, .host (.done kept), [ongoing]⟩ = some
      (⟨after, .settle, []⟩, []) := by cbv
  exact ⟨_, lowered, lower_root, .step rfl (.step hinvoked (.step hgiven (.step hended (.here _))))⟩

end Keeping

open Keeping in
/-- The slot of the argument is the second one, and is written once. -/
theorem parameter_slots_owned_keeping : (compile 2 root).run.run compiler = some (.ok compilation, after) ∧
    compilation.assemble = .ok program ∧ ∀ n k, program.op? n k = some (.store 1) ↔ n = 1 ∧ k = 0 := by
  have hcreate : create 0 {} () = .ok created := rfl
  have hgiven : givenSlots [.given outer, .invoked handle [holder], .given copied] = [0, 2] := rfl
  have hheld : heldSlots [.given outer, .invoked handle [holder], .given copied] = [1] := rfl
  have hroot : root.Accesses [.given outer, .invoked handle [holder], .given copied] :=
    ⟨by simp [hgiven, root, Arg.pushed], by simp [hgiven, root, Arg.pushed]⟩
  have hkept : kept.Accesses [.given outer, .invoked handle [holder], .given copied] :=
    ⟨by simp [hgiven, kept], by simp [hgiven, hheld, kept]⟩
  have hbodies : ∀ d ∈ compilation.declarations, d.body.Accesses [.given outer, .invoked handle [holder], .given copied] := by
    intro d hd
    obtain rfl := List.mem_singleton.1 hd
    exact hkept
  obtain ⟨-, -, howned⟩ := parameter_slots_owned hcreate leads_compiler compile_root settles_root hroot hbodies
    assemble_compilation
  refine ⟨compile_root, assemble_compilation, fun n k => ?_⟩
  have hlength : declaration.slots.length = 1 := rfl
  rw [(howned 0 declaration rfl).2 0 1 rfl n k, hlength]
  omega

end Compiler

end ScratchMachine
