import ScratchMachine.Proofs.Courses

/-!
# What declaring keeps

Whatever hosts do, the blocks of the graph stay as they are, and a declared subroutine keeps a fragment that means its
code.

* `Compiler.Sound`: what holds of every compiler all along.
* `Compiler.Reachable.sound`: the compilers that a host can come to have are sound.
* `Compiler.compile_ensures`: everything that is true of a compiled program.
-/

namespace ScratchMachine

open Behaviour BlockGraph Fallible

/-! ### Sound compilers -/

/-- In a graph, and however it grows, the fragment of a declaration means its code, and its end if it has one is open. -/
def Declaration.MeansIn (g : BlockGraph) (d : Declaration) : Prop :=
  ∃ code, Compiler.prologue d.holders (Compiler.withReturn d.subroutine d.body) = .ok code ∧
    (∀ x, d.fragment.exit = some x → g.IsOpen x) ∧
    (code.Regular → ∀ g', g.Extends g' → d.fragment.Means g' fun calls => code.behaviour calls true)

theorem Declaration.MeansIn.mono {g g' : BlockGraph} {d : Declaration} (h : d.MeansIn g) (hgrows : Grows g.size g g') :
    d.MeansIn g' := by
  obtain ⟨code, hcode, hopen, hmeans⟩ := h
  refine ⟨code, hcode, fun x hx => ?_, fun hreg k hk => hmeans hreg k (hgrows.extends'.trans hk)⟩
  obtain ⟨b, hb, hexit⟩ := hopen x hx
  exact ⟨b, (hgrows.keeps x (index_lt_size hb)).trans hb, hexit⟩

/-- A declaration has a holder for each parameter, and its body with a return at the end has passed the checks. -/
def Declaration.PassedFor (defined : Subroutine → Prop) (d : Declaration) : Prop :=
  d.holders.length = d.subroutine.arity ∧
    (Compiler.withReturn d.subroutine d.body).Everywhere (·.Checked (some d.subroutine) defined)

theorem Declaration.PassedFor.mono {defined defined' : Subroutine → Prop} {d : Declaration} (h : d.PassedFor defined)
    (hdefined : ∀ s, defined s → defined' s) : d.PassedFor defined' :=
  ⟨h.1, h.2.imp fun _ he => he.mono hdefined⟩

namespace Compiler

variable {σ α β : Type}

/-- A declared subroutine stands at the place of its number, and the fragment of its declaration is complete. -/
def Sound (c : Compiler σ) : Prop :=
  ∀ (i : Nat) (d : Definition σ) (decl : Declaration), c.definitions[i]? = some d → d.status = .declared decl →
    d.handle.id.number.toNat = i ∧ decl.subroutine = d.handle ∧ decl.MeansIn c.graph ∧ decl.PassedFor c.Defines

theorem Sound.of_grows {c c' : Compiler σ} (h : c.Sound) (hgrows : Grows c.graph.size c.graph c'.graph)
    (hdefs : c'.definitions = c.definitions) : c'.Sound := by
  intro i d decl hd hdecl
  rw [hdefs] at hd
  obtain ⟨hi, hsub, hmeans, hpassed⟩ := h i d decl hd hdecl
  exact ⟨hi, hsub, hmeans.mono hgrows, hpassed.mono (Evolves.of_grows hgrows hdefs).defines⟩

/-- One state follows another, and is sound. -/
def Keeps (c c' : Compiler σ) : Prop := c'.Sound ∧ c.Evolves c'

theorem Keeps.trans {c c' c'' : Compiler σ} (h : c.Keeps c') (h' : c'.Keeps c'') : c.Keeps c'' :=
  ⟨h'.1, h.2.trans h'.2⟩

theorem Sound.keeps {c : Compiler σ} (h : c.Sound) : c.Keeps c := ⟨h, .refl c⟩

/-- What changes neither the graph nor the definitions changes nothing that matters. -/
theorem Sound.keeps_of_eq {c c' : Compiler σ} (h : c.Sound) (hgraph : c'.graph = c.graph)
    (hdefs : c'.definitions = c.definitions) : c.Keeps c' := by
  have hgrows : Grows c.graph.size c.graph c'.graph := hgraph ▸ .refl _ _
  exact ⟨h.of_grows hgrows hdefs, .of_grows hgrows hdefs⟩

theorem Sound.keeps_of_advances {c c' : Compiler σ} (h : c.Sound) (hadvances : Advances c.graph.size c c') :
    c.Keeps c' := by
  have hdefs : c'.definitions = c.definitions := by rw [hadvances.rest]
  exact ⟨h.of_grows hadvances.grows hdefs, .of_grows hadvances.grows hdefs⟩

/-! ### The code of a body -/

section Code

variable {holders : List Variable} {s : Subroutine} {body tail code : Expr} {P : Expr → Prop}

/-- What holds of sequences and returns holds of a body with a return at its end, if it holds of the body. -/
theorem everywhere_withReturn (hbody : body.Everywhere P) (hseq : ∀ items, P (.seq items)) (hret : ∀ value, P (.ret value))
    (hnothing : P .retNothing) : (withReturn s body).Everywhere P := by
  unfold withReturn
  split
  · exact hbody
  · split
    · have hreturn : Expr.retNothing.Everywhere P := .intro hnothing (by simp [Expr.parts])
      exact .intro (hseq _) (by simp [Expr.parts, hbody, hreturn])
    · exact .intro (hret _) (by simp [Expr.parts, hbody])

/-- Before the body the code of a subroutine has operations that store its arguments, and nothing else. -/
theorem prologue_eq_ok (hcode : prologue holders tail = .ok code) :
    ∃ stores, code = .seq (stores ++ [tail]) ∧ ∀ e ∈ stores, ∃ slot, e = .ofOp (.store slot) [] .none := by
  obtain ⟨stores, hstores, hcode⟩ := except_bind_eq_ok.1 hcode
  cases hcode
  refine ⟨stores, rfl, fun e he => ?_⟩
  obtain ⟨v, -, hv⟩ := mem_of_mapM hstores he
  unfold Variable.storeTop at hv
  split at hv
  · cases hv
    exact ⟨_, rfl⟩
  · cases hv

theorem everywhere_prologue (hcode : prologue holders tail = .ok code) (htail : tail.Everywhere P)
    (hseq : ∀ items, P (.seq items)) (hstore : ∀ slot, P (.ofOp (.store slot) [] .none)) : code.Everywhere P := by
  obtain ⟨stores, rfl, hstores⟩ := prologue_eq_ok hcode
  apply Expr.Everywhere.intro (hseq _)
  intro part hpart
  rcases List.mem_append.1 hpart with hmem | hlast
  · obtain ⟨slot, rfl⟩ := hstores part hmem
    exact .intro (hstore slot) (by simp [Expr.parts, Expr.ofOp])
  · exact List.mem_singleton.1 hlast ▸ htail

end Code

/-! ### What is true of a declaration -/

/-- What was built is complete. -/
theorem BuiltFrom.complete {K : Compiler σ → Compiler σ → Prop} {d : Definition σ} {c c' : Compiler σ}
    {decl : Declaration} (h : BuiltFrom K d c decl c') :
    decl.subroutine = d.handle ∧ decl.MeansIn c'.graph ∧ decl.PassedFor c'.Defines := by
  have hlength := h.length_holders
  obtain ⟨params, c₁, c₂, c₃, code, -, -, hsub, -, hcode, hlower, rfl⟩ := h
  have hlowered := (lower_ensures code _).of_ok hlower
  have hchecked := (lower_checks code _).of_ok hlower
  refine ⟨hsub, ⟨code, hcode, fun x hx => (hlowered.isOpen x hx).2, hlowered.means⟩, hlength, ?_⟩
  obtain ⟨stores, -, hseq⟩ := except_bind_eq_ok.1 hcode
  cases hseq
  have htail := hchecked.part (q := withReturn decl.subroutine decl.body) (by simp [Expr.parts])
  have hevolves : Evolves { c₂ with current := some d.handle } c₃ :=
    .of_grows hlowered.advances.grows (by rw [hlowered.advances.rest])
  rw [hsub] at htail ⊢
  exact htail.imp fun _ hq => hq.mono hevolves.defines

/-! ### Soundness -/

theorem Sound.of_declarations {c c' : Compiler σ} (h : c.Sound) (hevolves : c.Evolves c')
    (hdecls : ∀ (i : Nat) (d : Definition σ) (decl : Declaration), c'.definitions[i]? = some d →
      d.status = .declared decl → (c.definitions[i]? = some d) ∨
        (d.handle.id.number.toNat = i ∧ decl.subroutine = d.handle ∧ decl.MeansIn c'.graph ∧ decl.PassedFor c'.Defines)) :
    c.Keeps c' := by
  refine ⟨fun i d decl hd hdecl => (hdecls i d decl hd hdecl).elim (fun hold => ?_) id, hevolves⟩
  obtain ⟨hplace, hsub, hmeans, hpassed⟩ := h i d decl hold hdecl
  exact ⟨hplace, hsub, hmeans.mono hevolves.grows, hpassed.mono hevolves.defines⟩

theorem keeps_define {c : Compiler σ} (hc : c.Sound) (name : String) (params : List Param) (returns : ValueType)
    (body : Body σ) : c.Keeps (c.define name params returns body).2 := by
  refine hc.of_declarations (evolves_define c name params returns body) fun i d decl hd hdecl => ?_
  exact .inl ((getElem?_define hd).resolve_right fun hstatus => by simp [hdecl] at hstatus)

/-- Noting that a subroutine is not declared, or that its declaration means what it should, keeps a compiler sound. -/
theorem keeps_withStatus {c : Compiler σ} (hc : c.Sound) {s : Subroutine} {status : Status}
    (hstatus : ∀ decl, status = .declared decl →
      c.Defines s ∧ decl.subroutine = s ∧ decl.MeansIn c.graph ∧ decl.PassedFor c.Defines) :
    c.Keeps (c.withStatus s status) := by
  have hevolves := evolves_withStatus c s status
  refine hc.of_declarations hevolves fun i d decl hd hdecl => ?_
  rw [getElem?_withStatus] at hd
  split at hd
  · rename_i hi
    obtain ⟨d₀, hd₀, rfl⟩ := Option.map_eq_some_iff.1 hd
    obtain ⟨⟨d₁, hd₁⟩, hsub, hmeans, hpassed⟩ := hstatus decl hdecl
    obtain ⟨hget, rfl⟩ := definition?_eq_some hd₁
    rw [hi] at hget
    obtain rfl := Option.some.inj (hget.symm.trans hd₀)
    exact .inr ⟨hi, hsub, hmeans, hpassed.mono hevolves.defines⟩
  · exact .inl hd

theorem enduring_keeps : Enduring (Keeps (σ := σ)) where
  trans := Keeps.trans
  stays h := h.1.keeps
  slots hc _ := hc.1.keeps_of_eq rfl rfl
  host _ hc := hc.1.keeps_of_eq rfl rfl
  current _ hc := hc.1.keeps_of_eq rfl rfl
  define name params returns body hc := keeps_define hc.1 name params returns body
  lower hc _ h := hc.1.keeps_of_advances h
  evolves h := h.2
  pending _ hc := hc.1.keeps_of_eq rfl rfl
  undeclared hc hstatus := keeps_withStatus hc.1 fun decl h => absurd h (hstatus decl)
  declared _ h hbuilt hhandle hdefines := by
    refine h.trans (keeps_withStatus h.1 fun decl' heq => ?_)
    cases heq
    obtain ⟨hsub, hmeans, hpassed⟩ := hbuilt.complete
    exact ⟨hdefines, hsub.trans hhandle, hmeans, hpassed⟩

theorem sound_of_no_definitions {c : Compiler σ} (h : c.definitions = []) : c.Sound := by
  intro i d decl hd
  rw [h] at hd
  cases hd

theorem sound_of_create {key : Nat} {options : Options} {host : σ} {c : Compiler σ}
    (h : create key options host = .ok c) : c.Sound := by
  obtain ⟨-, -, h⟩ := except_bind_eq_ok.1 h
  cases h
  exact sound_of_no_definitions rfl

theorem Reachable.sound {c : Compiler σ} (h : c.Reachable) : c.Sound :=
  (h.holds enduring_keeps fun _ _ _ _ hcreate => (sound_of_create hcreate).keeps).1

/-! ### Compiled programs -/

/-- The whole of what is true of a compiled program. -/
structure Compiled (root : Expr) (compilation : Compilation) : Prop where
  mainOpen : ∀ x, compilation.main.exit = some x → compilation.graph.IsOpen x
  main : root.Regular → compilation.main.Means compilation.graph fun calls => root.behaviour calls false
  declarations : ∀ d ∈ compilation.declarations, d.MeansIn compilation.graph
  /-- Two subroutines with the same number are the same, if they are called or declared. -/
  passed : ∀ d ∈ compilation.declarations,
    d.PassedFor fun s => ∀ d' ∈ compilation.declarations, d'.subroutine.id = s.id → d'.subroutine = s
  /-- The declarations come in the order of their numbers. -/
  ascending : compilation.declarations.Pairwise fun d d' => d.subroutine.id.number.toNat < d'.subroutine.id.number.toNat

/-- The declarations of a sound compiler stand at their places and are what they should be. -/
theorem Sound.declarations {c : Compiler σ} (h : c.Sound) {decl : Declaration} (hdecl : decl ∈ c.declarations) :
    (∃ d, c.definitions[decl.subroutine.id.number.toNat]? = some d ∧ decl.subroutine = d.handle) ∧
      decl.MeansIn c.graph ∧ decl.PassedFor c.Defines := by
  obtain ⟨i, d, hd, hstatus⟩ := mem_declarations.1 hdecl
  obtain ⟨hplace, hsub, hrest⟩ := h i d decl hd hstatus
  refine ⟨⟨d, ?_, hsub⟩, hrest⟩
  rwa [hsub, hplace]

/-- A declaration with the number of a subroutine of this compiler declares that subroutine. -/
theorem Sound.subroutine_eq {c : Compiler σ} (h : c.Sound) {decl : Declaration} (hdecl : decl ∈ c.declarations)
    {s : Subroutine} (hs : c.Defines s) (hid : decl.subroutine.id = s.id) : decl.subroutine = s := by
  obtain ⟨⟨d, hd, hsub⟩, -⟩ := h.declarations hdecl
  obtain ⟨d', hd'⟩ := hs
  obtain ⟨hget, hhandle⟩ := definition?_eq_some hd'
  rw [← hid, hd] at hget
  cases hget
  rw [hsub, hhandle]

/-- The declarations of a sound compiler come in the order of their numbers. -/
theorem Sound.ascending {c : Compiler σ} (h : c.Sound) :
    c.declarations.Pairwise fun d d' => d.subroutine.id.number.toNat < d'.subroutine.id.number.toNat := by
  unfold Compiler.declarations
  rw [List.pairwise_filterMap, List.pairwise_iff_getElem]
  intro i j hi hj hij decl hdecl decl' hdecl'
  have hplace : ∀ (k : Nat) (hk : k < c.definitions.length) (decl : Declaration),
      c.definitions[k].status = .declared decl → decl.subroutine.id.number.toNat = k := by
    intro k hk decl hstatus
    obtain ⟨hplace, hsub, -⟩ := h k _ decl (List.getElem?_eq_getElem hk) hstatus
    rw [hsub, hplace]
  split at hdecl
  · rename_i hstatus
    split at hdecl'
    · rename_i hstatus'
      cases hdecl
      cases hdecl'
      rw [hplace i hi _ hstatus, hplace j hj _ hstatus']
      exact hij
    · cases hdecl'
  · cases hdecl

theorem compile_ensures {c : Compiler σ} (hc : c.Sound) (limit : Nat) (root : Expr) :
    Declaring.Ensures (compile limit root) c (fun compilation _ => Compiled root compilation) fun _ => True := by
  unfold compile
  refine Declaring.ensures_bind (Declaring.ensures_modify ?_)
  have hkeeps₁ : c.Keeps { c with current := none } := hc.keeps_of_eq rfl rfl
  refine Declaring.ensures_bind (Declaring.ensures_perform ((lower_ensures root _).imp (fun main c₂ hmain => ?_)
    fun _ _ => trivial))
  have hkeeps₂ := hkeeps₁.1.keeps_of_advances hmain.advances
  refine Declaring.ensures_bind ((safe_declarePending enduring_keeps limit limit c₂ hkeeps₂.1.keeps).imp (fun _ c₃ h₃ => ?_)
    fun _ _ => trivial)
  refine Declaring.ensures_bind (Declaring.ensures_get (Declaring.ensures_pure ?_))
  have hpassed : ∀ d ∈ c₃.declarations,
      d.PassedFor fun s => ∀ d' ∈ c₃.declarations, d'.subroutine.id = s.id → d'.subroutine = s := by
    intro d hd
    refine (h₃.1.declarations hd).2.2.mono fun s hs d' hd' hid => ?_
    exact h₃.1.subroutine_eq hd' hs hid
  refine ⟨fun x hx => ?_, fun hreg => hmain.means hreg _ h₃.2.grows.extends', fun d hd => (h₃.1.declarations hd).2.1,
    hpassed, h₃.1.ascending⟩
  obtain ⟨-, b, hb, hexit⟩ := hmain.isOpen x hx
  exact ⟨b, (h₃.2.grows.keeps x (index_lt_size hb)).trans hb, hexit⟩

end Compiler

end ScratchMachine
