import ScratchMachine.Proofs.DeadCode

/-!
# What the options decide

The options of a compilation decide which operations are available and how many slots there are, and nothing else: with
other options a script either comes to the same program or is refused.

* `Builder.Yields`: the program that comes of a script.
* `Compiler.options_gate_availability`: when scripts come to the same program, and that no program has operations that
  its version lacks.
-/

namespace ScratchMachine

open BlockGraph Fallible Declaring Compiler

variable {σ : Type}

/-- With these options a host builds the main program by its script, and it is compiled and assembled.  The trees are
the main program and the bodies of the subroutines declared; `limit` bounds the number of these and their nesting. -/
def Builder.Yields (script : Builder σ) (key : Nat) (host : σ) (limit : Nat) (options : Options) (trees : List Expr)
    (program : Program) : Prop :=
  ∃ c c₁ c₂ root compilation, create key options host = .ok c ∧
    (script.run (Compiler.declare limit)).run.run c = some (.ok root, c₁) ∧
    (compile limit root).run.run c₁ = some (.ok compilation, c₂) ∧ compilation.assemble = .ok program ∧
    trees = root :: compilation.declarations.map (·.body)

/-- A script comes to one program only. -/
theorem Builder.Yields.unique {script : Builder σ} {key limit : Nat} {host : σ} {options : Options}
    {trees trees' : List Expr}
    {program program' : Program} (h : script.Yields key host limit options trees program)
    (h' : script.Yields key host limit options trees' program') : trees' = trees ∧ program' = program := by
  obtain ⟨c, c₁, c₂, root, compilation, hcreate, hscript, hcompile, hassemble, rfl⟩ := h
  obtain ⟨c', c₁', c₂', root', compilation', hcreate', hscript', hcompile', hassemble', rfl⟩ := h'
  obtain rfl := Except.ok.inj (hcreate.symm.trans hcreate')
  obtain ⟨hroot, rfl⟩ := Prod.mk.inj (Option.some.inj (hscript.symm.trans hscript'))
  obtain rfl := Except.ok.inj hroot
  obtain ⟨hcompilation, -⟩ := Prod.mk.inj (Option.some.inj (hcompile.symm.trans hcompile'))
  obtain rfl := Except.ok.inj hcompilation
  exact ⟨rfl, Except.ok.inj (hassemble'.symm.trans hassemble)⟩

namespace Compiler

section

variable {alike : Prop} {c c' c₁ c₂ : Compiler σ} {key limit : Nat} {host : σ} {o o' : Options} {root : Expr}
  {compilation : Compilation} {program : Program}

/-! ### The same program -/

theorem create_eq_ok (h : create key o host = .ok c) :
    o.validate = .ok () ∧ c = { key, options := o, slots := .empty o.slotCount, host } := by
  obtain ⟨⟨⟩, hvalid, h⟩ := except_bind_eq_ok.1 h
  cases h
  exact ⟨hvalid, rfl⟩

/-- New compilers with no fewer slots are twins of those with fewer. -/
theorem twins_of_create (hcreate : create key o host = .ok c) (hvalid : o'.validate = .ok ())
    (hslots : o.slotCount ≤ o'.slotCount) (hsame : alike → o'.slotCount = o.slotCount) :
    ∃ c', create key o' host = .ok c' ∧ Twins alike o' c c' := by
  obtain ⟨-, rfl⟩ := create_eq_ok hcreate
  refine ⟨{ key, options := o', slots := .empty o'.slotCount, host }, ?_, ?_⟩
  · rw [create, hvalid]
    rfl
  · exact ⟨rfl, rfl, rfl, hslots, hsame, rfl, .nil, rfl, rfl, rfl⟩

/-- No program has an operation that its version lacks, and nor has the graph behind it. -/
theorem available_of_compile (hc : Abides c c) (hcompile : (compile limit root).run.run c = some (.ok compilation, c'))
    (hassemble : compilation.assemble = .ok program) :
    compilation.graph.Available c.options.version ∧ program.Available c.options.version := by
  have habides := (safe_compile enduring_abides limit root).holds hc hcompile
  obtain ⟨main, lowered, -, -, rfl⟩ := Moment.compile_eq_ok hcompile
  rw [← habides.options]
  exact ⟨habides.available, Compilation.program_available hassemble habides.available habides.version habides.narrow⟩

theorem abides_of_script {script : Builder σ} (hcreate : create key o host = .ok c)
    (hscript : (script.run (declare limit)).run.run c = some (.ok root, c₁)) : Abides c₁ c₁ ∧ c₁.options = o := by
  have habides := (safe_run enduring_abides.toCourse (safe_declare enduring_abides limit) script).holds
    (abides_of_create hcreate) hscript
  obtain ⟨-, rfl⟩ := create_eq_ok hcreate
  exact ⟨enduring_abides.stays habides, habides.options⟩

/-- A second host that follows a first one comes to the same program with other options, if there are no fewer slots and
the version has all operations of the graph. -/
theorem yields_of_follows {script script' : Builder σ} (hfollows : Builder.Follows alike script script')
    (hcreate : create key o host = .ok c) (hscript : (script.run (declare limit)).run.run c = some (.ok root, c₁))
    (hcompile : (compile limit root).run.run c₁ = some (.ok compilation, c₂))
    (hassemble : compilation.assemble = .ok program)
    (hvalid : o'.validate = .ok ()) (hslots : o.slotCount ≤ o'.slotCount) (hsame : alike → o'.slotCount = o.slotCount)
    (havailable : compilation.graph.Available o'.version) :
    script'.Yields key host limit o' (root :: compilation.declarations.map (·.body)) program := by
  obtain ⟨c', hcreate', htwins⟩ := twins_of_create hcreate hvalid hslots hsame
  obtain ⟨c₁', hscript', htwins₁⟩ := htwins.run hfollows hscript
  obtain ⟨hgraph, -⟩ := (compile_state limit root c₁).of_ok hcompile
  obtain ⟨c₂', hcompile', -⟩ := htwins₁.compile (abides_of_script hcreate hscript).1 hcompile (hgraph ▸ havailable)
  exact ⟨c', c₁', c₂', root, _, hcreate', hscript', hcompile', hassemble, rfl⟩

/-- The graph that a script leads to has no dead code, if all trees state rightly where control ends. -/
theorem swept_of_script {script : Builder σ} (hoblivious : script.Oblivious) (hcreate : create key o host = .ok c)
    (hscript : (script.run (declare limit)).run.run c = some (.ok root, c₁))
    (hcompile : (compile limit root).run.run c₁ = some (.ok compilation, c₂))
    (hcandid : ∀ e ∈ root :: compilation.declarations.map (·.body), e.Everywhere Expr.Candid) :
    compilation.graph.Swept (compilation.fragments.map (·.entry)) := by
  obtain ⟨-, rfl⟩ := create_eq_ok hcreate
  have hsetsUp := setsUp_run hoblivious hscript
  have hheedless : c₁.Heedless := hsetsUp.heedless fun d hd => by cases hd
  have hsize : c₁.graph.size = 0 := by
    rw [hsetsUp.rest]
    rfl
  exact swept_of_compile hheedless hsize hcompile (hcandid root (List.mem_cons_self ..)) fun decl hdecl =>
    hcandid decl.body (List.mem_cons_of_mem _ (List.mem_map_of_mem hdecl))

/-- Let neither a host nor the hosts of the subroutines that it defines look at the options or have anything lowered or
declared.  What it comes to with some version, it comes to with the highest as well, and all operations of the program
are in the version.  What it comes to with the highest version, it comes to with each lower one that has all operations
of the program, if every operation node of the trees states rightly whether control gets past it.  If it is granted all
variables, then it comes to the same with more slots.  And whatever hosts do, no program that is assembled has an
operation that its version lacks. -/
theorem options_gate_availability {script : Builder σ} (hscript : script.Oblivious) (key : Nat) (host : σ) (limit : Nat) :
    (∀ version slotCount trees program, script.Yields key host limit ⟨version, slotCount⟩ trees program →
      script.Yields key host limit ⟨Options.highestVersion, slotCount⟩ trees program ∧ program.Available version) ∧
    (∀ version slotCount trees program, Options.lowestVersion ≤ version → version ≤ Options.highestVersion →
      script.Yields key host limit ⟨Options.highestVersion, slotCount⟩ trees program →
      (∀ e ∈ trees, e.Everywhere Expr.Candid) → program.Available version →
      script.Yields key host limit ⟨version, slotCount⟩ trees program) ∧
    (∀ version slotCount slotCount' trees program, slotCount ≤ slotCount' →
      script.insisting.Yields key host limit ⟨version, slotCount⟩ trees program →
      script.Yields key host limit ⟨version, slotCount'⟩ trees program) ∧
    ∀ (c c' : Compiler σ) (root : Expr) (compilation : Compilation) (program : Program), c.Reachable →
      (compile limit root).run.run c = some (.ok compilation, c') → compilation.assemble = .ok program →
      program.Available c.options.version := by
  refine ⟨?_, ?_, ?_, fun c c' root compilation program hc hcompile hassemble =>
    (available_of_compile hc.abides hcompile hassemble).2⟩
  · rintro version slotCount trees program ⟨c, c₁, c₂, root, compilation, hcreate, hrun, hcompile, hassemble, rfl⟩
    obtain ⟨habides, hoptions⟩ := abides_of_script hcreate hrun
    obtain ⟨⟨-, hle⟩, hslots⟩ := Options.validate_eq_ok.1 (create_eq_ok hcreate).1
    have havailable := available_of_compile habides hcompile hassemble
    rw [hoptions] at havailable
    refine ⟨?_, havailable.2⟩
    exact yields_of_follows hscript.follows hcreate hrun hcompile hassemble
      (Options.validate_eq_ok.2 ⟨⟨(by decide : Options.lowestVersion ≤ Options.highestVersion), le_refl _⟩, hslots⟩)
      (UInt64.le_refl _) (fun _ => rfl) (havailable.1.mono hle)
  · rintro version slotCount trees program hlow hhigh ⟨c, c₁, c₂, root, compilation, hcreate, hrun, hcompile,
      hassemble, rfl⟩
      hcandid hprogram
    have hswept := swept_of_script hscript hcreate hrun hcompile hcandid
    obtain ⟨-, hslots⟩ := Options.validate_eq_ok.1 (create_eq_ok hcreate).1
    exact yields_of_follows hscript.follows hcreate hrun hcompile hassemble
      (Options.validate_eq_ok.2 ⟨⟨hlow, hhigh⟩, hslots⟩)
      (UInt64.le_refl _) (fun _ => rfl) (Compilation.available_of_program hassemble hswept hprogram)
  · rintro version slotCount slotCount' trees program hle ⟨c, c₁, c₂, root, compilation, hcreate, hrun, hcompile,
      hassemble, rfl⟩
    obtain ⟨habides, hoptions⟩ := abides_of_script hcreate hrun
    obtain ⟨hin, hslots⟩ := Options.validate_eq_ok.1 (create_eq_ok hcreate).1
    have havailable := (available_of_compile habides hcompile hassemble).1
    rw [hoptions] at havailable
    have hslots' : slotCount' ≠ 0 := by
      rintro rfl
      exact hslots (UInt64.le_zero_iff.1 hle)
    exact yields_of_follows hscript.follows_insisting hcreate hrun hcompile hassemble
      (Options.validate_eq_ok.2 ⟨hin, hslots'⟩) hle
      (fun hfalse => hfalse.elim) havailable

end

/-! ### A program with a call -/

namespace Calling

def handle : Subroutine := ⟨0, ⟨0⟩, "f", [], .uint64⟩

def goOn (v : Variable) : Builder Unit :=
  .define "f" [] .uint64 (fun _ _ => .done (.int 7)) fun f => .done (.add v.load (.call f []))

/-- The host needs a variable, and its main program adds to it what a subroutine returns. -/
def script : Builder Unit := .newVariable .uint64 .pool none (.orFail goOn)

def root : Expr := .add (Variable.load ⟨.uint64, .pooled 0, none⟩) (.call handle [])

def program : Program where
  code := [⟨"main", #[.load 0, .callsub ⟨0⟩, .add]⟩, ⟨"f", #[.int 7, .retsub]⟩]
  subroutines := .ofList [(⟨0⟩, 1)]

theorem script_oblivious : script.Oblivious := by
  intro answer
  cases answer with
  | error e => trivial
  | ok v => exact ⟨fun _ _ => trivial, fun _ => trivial⟩

def created : Compiler Unit := { key := 0, options := ⟨5, 1⟩, slots := .empty 1, host := () }

def defined : Compiler Unit :=
  (define { created with slots := ⟨1, 1, [], [0]⟩ } "f" [] .uint64 fun _ _ => .done (.int 7)).2

def compilation : Compilation where
  options := ⟨5, 1⟩
  graph := ⟨#[⟨[.load 0], .next ⟨1⟩⟩, ⟨[.callsub ⟨0⟩], .next ⟨2⟩⟩, ⟨[.add], .opened⟩, ⟨[.int 7], .next ⟨4⟩⟩,
    ⟨[.retsub], .terminal⟩]⟩
  main := ⟨⟨0⟩, some ⟨2⟩⟩
  declarations := [⟨handle, .int 7, ⟨⟨3⟩, none⟩, []⟩]

theorem compile_root : ((compile 1 root).run.run defined).map (·.1) = some (.ok compilation) := by
  cbv

/-- With the highest version and a single slot. -/
theorem script_yields : script.Yields 0 () 1 ⟨5, 1⟩ [root, .int 7] program := by
  obtain ⟨⟨answer, c₂⟩, hcompile, hanswer⟩ := Option.map_eq_some_iff.1 compile_root
  obtain rfl : answer = .ok compilation := hanswer
  have hcreate : create 0 ⟨5, 1⟩ () = .ok created := rfl
  have hscript : (script.run (declare 1)).run.run created = some (.ok root, defined) := by cbv
  exact ⟨created, defined, c₂, root, compilation, hcreate, hscript, hcompile, by cbv, rfl⟩

end Calling

open Calling in
/-- The lowest version that has calls will do, with more slots as well, and no lower one. -/
theorem options_gate_availability_calling :
    script.Yields 0 () 1 ⟨4, 1⟩ [root, .int 7] program ∧ script.Yields 0 () 1 ⟨4, 256⟩ [root, .int 7] program ∧
      ∀ trees p, ¬ script.Yields 0 () 1 ⟨3, 1⟩ trees p := by
  obtain ⟨hhigher, hlower, hslots, -⟩ := options_gate_availability script_oblivious 0 () 1
  have hload : (Variable.load ⟨.uint64, .pooled 0, none⟩).Regular := .op ⟨rfl, rfl, by simp, by simp⟩ (by simp)
  have hcall : (Expr.call handle []).Regular := .call (by simp)
  have hroot : root.Regular := .op ⟨rfl, rfl, by simp, by simp⟩ (by simp [hload, hcall])
  have hcandid : ∀ e ∈ [root, .int 7], e.Everywhere Expr.Candid := by
    intro e he
    rcases List.mem_cons.1 he with rfl | he
    · exact hroot.candid
    · exact List.mem_singleton.1 he ▸ (Expr.Regular.int 7).candid
  have hfour : script.Yields 0 () 1 ⟨4, 1⟩ [root, .int 7] program :=
    hlower 4 1 _ program (by decide) (by decide) script_yields hcandid (by unfold Program.Available; decide)
  refine ⟨hfour, hslots 4 1 256 _ program (by decide) hfour, fun trees p h => ?_⟩
  obtain ⟨hfive, hthree⟩ := hhigher 3 1 trees p h
  obtain ⟨-, rfl⟩ := script_yields.unique hfive
  revert hthree
  unfold Program.Available
  decide

/-! ### Dead code -/

namespace Unreached

/-- The operation ends the program, but the node says that control gets past it. -/
def quiet : Expr := .op .err [] .none false

/-- Control never comes to the operation behind the conditional. -/
def tree : Expr := .seq [.ifElse (.int 1) quiet quiet, .ofOp .loads [.int 0] .any]

def script : Builder Unit := .done tree

def program : Program := ⟨[⟨"main", #[.int 1, .jumpIfFalse 2, .err, .err]⟩], .ofList []⟩

def created : Compiler Unit := { key := 0, options := {}, slots := .empty 256, host := () }

def compilation : Compilation where
  options := {}
  graph := ⟨#[⟨[.int 1], .branch ⟨1⟩ ⟨3⟩ []⟩, ⟨[.err], .terminal⟩, ⟨[], .next ⟨4⟩⟩, ⟨[.err], .terminal⟩,
    ⟨[.int 0], .next ⟨5⟩⟩, ⟨[.loads], .opened⟩]⟩
  main := ⟨⟨0⟩, some ⟨5⟩⟩
  declarations := []

theorem compile_tree : ((compile 0 tree).run.run created).map (·.1) = some (.ok compilation) := by
  cbv

end Unreached

open Unreached in
/-- An operation that is not in the program may still be refused, if nodes do not state rightly where control ends. -/
theorem unreached_operation_refused : script.Oblivious ∧ script.Yields 0 () 0 ⟨5, 256⟩ [tree] program ∧
    program.Available 4 ∧ ∀ limit trees p, ¬ script.Yields 0 () limit ⟨4, 256⟩ trees p := by
  refine ⟨trivial, ?_, by unfold Program.Available; decide, ?_⟩
  · obtain ⟨⟨answer, c₂⟩, hcompile, hanswer⟩ := Option.map_eq_some_iff.1 compile_tree
    obtain rfl : answer = .ok compilation := hanswer
    have hcreate : create 0 ⟨5, 256⟩ () = .ok created := rfl
    exact ⟨created, created, c₂, tree, compilation, hcreate, rfl, hcompile, by cbv, rfl⟩
  · rintro limit trees p ⟨c, c₁, c₂, root, compilation, hcreate, hscript, hcompile, -, -⟩
    obtain ⟨-, rfl⟩ := create_eq_ok hcreate
    cases hscript
    obtain ⟨main, lowered, hlower, -, -⟩ := Moment.compile_eq_ok hcompile
    have hrefused : ((lower tree).run.run { created with options := ⟨4, 256⟩ }).1 =
        .error (.notAvailable "loads" 5 4) := by cbv
    have hsame : ((lower tree).run.run { created with options := ⟨4, 256⟩ }).1 = .ok main := congrArg Prod.fst hlower
    rw [hrefused] at hsame
    cases hsame

end Compiler

end ScratchMachine
