import ScratchMachine.Proofs.Refusals
import ScratchMachine.Proofs.SameCourse

/-!
# Other numbers

The numbers of slots, and integer constants, matter when a program runs.  Whether an expression is accepted does not
depend on them: when they are replaced, its types stay the same, and it passes the same checks or is refused in the same
way.

* `Expr.renumber`, `Variable.renumber`, `Arg.renumber`: every number is replaced.
* `CompileError.Matches`: the same error, but for the numbers and blocks that it names.
* `Compiler.tally_checkItems` and so on: the checks do not look at numbers.
-/

namespace ScratchMachine

open Fallible

variable {f : UInt64 → UInt64}

/-! ### Expressions with other numbers -/

/-- The operation with another number. -/
def Operation.renumber (f : UInt64 → UInt64) : Operation → Operation
  | int n => int (f n)
  | load slot => load (f slot)
  | store slot => store (f slot)
  | o => o

mutual

/-- The expression with other numbers. -/
def Expr.renumber (f : UInt64 → UInt64) : Expr → Expr
  | .int n => .int (f n)
  | .bytes b => .bytes b
  | .op o args type returns => .op (o.renumber f) (Expr.renumberAll f args) type returns
  | .seq items => .seq (Expr.renumberAll f items)
  | .ifThen cond body => .ifThen (cond.renumber f) (body.renumber f)
  | .ifElse cond yes no => .ifElse (cond.renumber f) (yes.renumber f) (no.renumber f)
  | .ret value => .ret (value.renumber f)
  | .retNothing => .retNothing
  | .call callee args => .call callee (Arg.renumberAll f args)

/-- Expressions with other numbers. -/
def Expr.renumberAll (f : UInt64 → UInt64) : List Expr → List Expr
  | [] => []
  | e :: rest => e.renumber f :: Expr.renumberAll f rest

/-- The location with other numbers. -/
def Location.renumber (f : UInt64 → UInt64) : Location → Location
  | .pooled slot => .pooled (f slot)
  | .fixed slot => .fixed (f slot)
  | .computed index => .computed (index.renumber f)

/-- The variable in the slot of another number. -/
def Variable.renumber (f : UInt64 → UInt64) : Variable → Variable
  | ⟨type, location, target⟩ => ⟨type, location.renumber f, target⟩

/-- The argument with other numbers. -/
def Arg.renumber (f : UInt64 → UInt64) : Arg → Arg
  | .value e => .value (e.renumber f)
  | .ref v => .ref (v.renumber f)

/-- Arguments with other numbers. -/
def Arg.renumberAll (f : UInt64 → UInt64) : List Arg → List Arg
  | [] => []
  | a :: rest => a.renumber f :: Arg.renumberAll f rest

end

namespace Operation

@[simp] theorem isTerminal_renumber (o : Operation) : (o.renumber f).isTerminal = o.isTerminal := by
  cases o <;> rfl

@[simp] theorem introducedIn_renumber (o : Operation) : (o.renumber f).introducedIn = o.introducedIn := by
  cases o <;> rfl

@[simp] theorem mnemonic_renumber (o : Operation) : (o.renumber f).mnemonic = o.mnemonic := by
  cases o <;> rfl

@[simp] theorem renumber_id (o : Operation) : o.renumber id = o := by
  cases o <;> rfl

end Operation

theorem Expr.renumberAll_eq (es : List Expr) : renumberAll f es = es.map (renumber f) := by
  induction es with
  | nil => rw [renumberAll, List.map_nil]
  | cons e es ih => rw [renumberAll, List.map_cons, ih]

theorem Arg.renumberAll_eq (args : List Arg) : renumberAll f args = args.map (renumber f) := by
  induction args with
  | nil => rw [renumberAll, List.map_nil]
  | cons a args ih => rw [renumberAll, List.map_cons, ih]

/-! ### What stays the same -/

namespace Location

@[simp] theorem indexExpr_renumber (location : Location) :
    (location.renumber f).indexExpr = location.indexExpr.renumber f := by
  cases location <;> simp only [renumber, indexExpr, Expr.renumber]

@[simp] theorem index?_renumber (location : Location) : (location.renumber f).index? = location.index?.map f := by
  cases location <;> simp only [renumber, index?, Option.map_some, Option.map_none]

end Location

namespace Variable

@[simp] theorem type_renumber (v : Variable) : (v.renumber f).type = v.type := by
  cases v
  rw [renumber]

@[simp] theorem aliasOf_renumber (v : Variable) : (v.renumber f).aliasOf = v.aliasOf := by
  cases v
  rw [renumber]

@[simp] theorem location_renumber (v : Variable) : (v.renumber f).location = v.location.renumber f := by
  cases v
  rw [renumber]

@[simp] theorem isAlias_renumber (v : Variable) : (v.renumber f).isAlias = v.isAlias := by
  rw [isAlias, isAlias, aliasOf_renumber]

@[simp] theorem index_renumber (v : Variable) : (v.renumber f).index = v.index.renumber f := by
  rw [index, index, location_renumber, Location.indexExpr_renumber]

@[simp] theorem ownSlot?_renumber (v : Variable) : (v.renumber f).ownSlot? = v.ownSlot?.map f := by
  rw [ownSlot?, ownSlot?, isAlias_renumber, location_renumber, Location.index?_renumber]
  cases v.isAlias <;> rfl

theorem renumber_id_of_index {v : Variable} (h : v.index.renumber id = v.index) : v.renumber id = v := by
  obtain ⟨type, location, target⟩ := v
  cases location with
  | pooled slot | fixed slot => rw [renumber, Location.renumber, id]
  | computed index => rw [renumber, Location.renumber, show index.renumber id = index from h]

/-- To read it is the same but for the numbers. -/
@[simp] theorem load_renumber (v : Variable) : (v.renumber f).load = v.load.renumber f := by
  rw [load, load, ownSlot?_renumber]
  cases v.ownSlot? with
  | none =>
    simp only [Option.map_none, index_renumber, type_renumber, Expr.andThen, Expr.ofOp, Expr.renumber, Expr.renumberAll,
      Operation.renumber]
  | some slot =>
    simp only [Option.map_some, type_renumber, Expr.ofOp, Expr.renumber, Expr.renumberAll, Operation.renumber,
      Operation.isTerminal]

end Variable

namespace Arg

@[simp] theorem pushed_renumber (a : Arg) : (a.renumber f).pushed = a.pushed.renumber f := by
  cases a with
  | value e => rw [renumber, pushed, pushed]
  | ref v => rw [renumber, pushed, pushed, Variable.index_renumber]

end Arg

namespace Expr

/-- With the same numbers it is the same. -/
@[simp] theorem renumber_id (e : Expr) : e.renumber id = e := by
  have hall : ∀ {es : List Expr}, (∀ e ∈ es, e.renumber id = e) → es.map (renumber id) = es := fun h =>
    (List.map_congr_left h).trans (List.map_id _)
  induction e using Expr.induction with
  | int n => rw [renumber, id]
  | bytes b => rw [renumber]
  | op o args type returns ih => rw [renumber, Operation.renumber_id, renumberAll_eq, hall ih]
  | seq items ih => rw [renumber, renumberAll_eq, hall ih]
  | ifThen cond body ihcond ihbody => rw [renumber, ihcond, ihbody]
  | ifElse cond yes no ihcond ihyes ihno => rw [renumber, ihcond, ihyes, ihno]
  | ret value ih => rw [renumber, ih]
  | retNothing => rw [renumber]
  | call callee args ih =>
    have harg : ∀ a ∈ args, a.renumber id = a := by
      intro a ha
      cases a with
      | value e => rw [Arg.renumber, show e.renumber id = e from ih _ ha]
      | ref v => rw [Arg.renumber, Variable.renumber_id_of_index (ih _ ha)]
    rw [renumber, Arg.renumberAll_eq, List.map_congr_left harg, List.map_id']

end Expr

@[simp] theorem Variable.renumber_id (v : Variable) : v.renumber id = v := renumber_id_of_index (Expr.renumber_id _)

namespace Expr

mutual

@[simp] theorem alwaysReturns_renumber (e : Expr) : (e.renumber f).alwaysReturns = e.alwaysReturns := by
  cases e with
  | seq items => rw [renumber, alwaysReturns, alwaysReturns, lastReturns_renumberAll]
  | ifElse cond yes no =>
    rw [renumber, alwaysReturns, alwaysReturns, alwaysReturns_renumber yes, alwaysReturns_renumber no]
  | _ => simp only [renumber, alwaysReturns]

theorem lastReturns_renumberAll (es : List Expr) : lastReturns (renumberAll f es) = lastReturns es := by
  match es with
  | [] => rw [renumberAll]
  | [e] => rw [renumberAll, renumberAll, lastReturns, lastReturns, alwaysReturns_renumber e]
  | e :: e' :: rest =>
    rw [renumberAll, renumberAll, lastReturns, lastReturns, ← renumberAll, lastReturns_renumberAll (e' :: rest)]

end

mutual

@[simp] theorem type_renumber (e : Expr) : (e.renumber f).type = e.type := by
  cases e with
  | seq items => rw [renumber, type, type, lastType_renumberAll]
  | ifElse cond yes no =>
    rw [renumber, type, type, alwaysReturns_renumber, type_renumber yes, type_renumber no]
  | _ => simp only [renumber, type]

theorem lastType_renumberAll (es : List Expr) : lastType (renumberAll f es) = lastType es := by
  match es with
  | [] => rw [renumberAll]
  | [e] => rw [renumberAll, renumberAll, lastType, lastType, type_renumber e]
  | e :: e' :: rest =>
    rw [renumberAll, renumberAll, lastType, lastType, ← renumberAll, lastType_renumberAll (e' :: rest)]

end

end Expr

/-! ### Errors -/

/-- The error without the texts in which numbers may stand.  Errors that say that blocks were put together wrongly are all
one. -/
def CompileError.blurred : CompileError → CompileError
  | storeTop _ => storeTop ""
  | sequenceValue index type _ => sequenceValue index type ""
  | returnUnexpected name _ => returnUnexpected name ""
  | argumentWithoutValue _ index name => argumentWithoutValue "" index name
  | argumentIsVariable param name _ => argumentIsVariable param name ""
  | argumentVariableType param name expected _ actual => argumentVariableType param name expected "" actual
  | argumentIsValue param name _ => argumentIsValue param name ""
  | alreadyLinked .. | tooFewTargets _ | unknownBlock _ => tooFewTargets 0
  | e => e

/-- The same error but for numbers, and the very same if no number is replaced, unless it says that blocks were put
together wrongly, and names them. -/
def CompileError.Matches (f : UInt64 → UInt64) (e e' : CompileError) : Prop :=
  e'.blurred = e.blurred ∧ (f = id → e.isMislink = false → e' = e)

namespace CompileError.Matches

theorem refl (e : CompileError) : e.Matches f e := ⟨rfl, fun _ _ => rfl⟩

theorem of_mislink {e e' : CompileError} (h : e.isMislink = true) (h' : e'.isMislink = true) : e.Matches f e' := by
  have hblurred : ∀ {e : CompileError}, e.isMislink = true → e.blurred = .tooFewTargets 0 := by
    intro e h
    cases e with
    | alreadyLinked | tooFewTargets | unknownBlock => rfl
    | _ => cases h
  exact ⟨(hblurred h').trans (hblurred h).symm, fun _ hother => absurd h (by simp [hother])⟩

end CompileError.Matches

/-- Both checks pass, or they are refused in the same way. -/
abbrev Tally (f : UInt64 → UInt64) {α : Type} : Except CompileError α → Except CompileError α → Prop :=
  SameAnswer (CompileError.Matches f) fun a a' => a' = a

theorem Tally.refl {α : Type} (x : Except CompileError α) : Tally f x x := by
  cases x with
  | ok a => exact .ok rfl
  | error e => exact .error (.refl e)

/-! ### Checks -/

theorem Compiler.tally_checkItems (index : Nat) (es : List Expr) :
    Tally f (checkItems index (es.map (Expr.renumber f))) (checkItems index es) := by
  induction es generalizing index with
  | nil => exact Tally.refl _
  | cons e rest ih =>
    cases rest with
    | nil => exact Tally.refl _
    | cons e' rest =>
      rw [List.map_cons, List.map_cons, checkItems, checkItems, Expr.type_renumber]
      split
      · exact ih (index + 1)
      · exact .error ⟨rfl, fun hf _ => by rw [hf, Expr.renumber_id]⟩

theorem Compiler.tally_checkReturn (current : Option Subroutine) (value : Expr) :
    Tally f (checkReturn current (value.renumber f)) (checkReturn current value) := by
  unfold checkReturn
  rw [Expr.type_renumber]
  cases current with
  | none => exact Tally.refl _
  | some s =>
    dsimp only
    split
    · exact .error ⟨rfl, fun hf _ => by rw [hf, Expr.renumber_id]⟩
    · exact Tally.refl _

theorem Compiler.tally_checkArg (s : Subroutine) (index : Nat) (param : Param) (arg : Arg) :
    Tally f (s.checkArg index param (arg.renumber f)) (s.checkArg index param arg) := by
  obtain ⟨name, passing, type⟩ := param
  cases arg with
  | value e =>
    have htext : f = id → (e.renumber f).text = e.text := fun hf => by rw [hf, Expr.renumber_id]
    rw [Arg.renumber]
    cases passing with
    | value =>
      dsimp only [Subroutine.checkArg]
      rw [Expr.type_renumber]
      split
      · exact .error ⟨rfl, fun hf _ => by rw [htext hf]⟩
      · exact Tally.refl _
    | ref => exact .error ⟨rfl, fun hf _ => by rw [htext hf]⟩
  | ref v =>
    have htext : f = id → (v.renumber f).slot.text = v.slot.text := fun hf => by rw [hf, Variable.renumber_id]
    rw [Arg.renumber]
    cases passing with
    | value => exact .error ⟨rfl, fun hf _ => by rw [htext hf]⟩
    | ref =>
      dsimp only [Subroutine.checkArg]
      rw [Variable.type_renumber]
      split
      · exact Tally.refl _
      · exact .error ⟨rfl, fun hf _ => by rw [htext hf]⟩

/-- A call with other numbers passes the same checks. -/
theorem Compiler.tally_checkArgs (s : Subroutine) (args : List Arg) :
    Tally f (s.checkArgs (args.map (Arg.renumber f))) (s.checkArgs args) := by
  have hfrom : ∀ index params, Tally f (s.checkArgsFrom index params (args.map (Arg.renumber f)))
      (s.checkArgsFrom index params args) := by
    induction args with
    | nil =>
      intro index params
      cases params <;> exact Tally.refl _
    | cons arg args ih =>
      intro index params
      cases params with
      | nil => exact Tally.refl _
      | cons param params =>
        rw [List.map_cons, Subroutine.checkArgsFrom, Subroutine.checkArgsFrom]
        exact (tally_checkArg s index param arg).bind fun _ _ _ => ih (index + 1) params
  unfold Subroutine.checkArgs
  rw [List.length_map]
  split
  · exact hfrom 0 s.params
  · exact Tally.refl _

end ScratchMachine
