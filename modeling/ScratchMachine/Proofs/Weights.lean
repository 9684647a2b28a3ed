import ScratchMachine.Proofs.Rendering
import ScratchMachine.Proofs.StaticHeights

/-!
# Lowered trees carry what their types say

The lower bound for the height of the scan holds for every tree that is lowered, as long as nothing is linked to its
blocks but at its end.  It is read off the shape of the tree; that tells too which blocks are still open, and a branch at
one of them would cost a value that nobody left.

* `Compiler.Renders.carries`: the blocks of a tree carry what its type says.
-/

namespace ScratchMachine

open BlockGraph Fragment

namespace Compiler

variable {g : BlockGraph} {current : Option Subroutine} {defined : Subroutine → Prop} {e : Expr} {lo hi : Nat}
  {f : Fragment} {fs : List Fragment}

/-! ### What types say -/

theorem candid_of_orderly  (h : e.Everywhere (Expr.Orderly current defined)) : e.Everywhere Expr.Candid :=
  (Expr.regular_of_fitsStack (h.imp fun _ h => h.fits)).candid

/-- What a conditional leaves is no more than what one of its arms leaves past which control gets. -/
theorem size_type_ifElse_le {cond yes no : Expr}
    (h : (Expr.ifElse cond yes no).Everywhere (Expr.Orderly current defined)) :
    (Expr.ifElse cond yes no).type.size = 0 ∨
      yes.alwaysReturns = false ∧ (Expr.ifElse cond yes no).type.size ≤ yes.type.size ∨
      no.alwaysReturns = false ∧ (Expr.ifElse cond yes no).type.size ≤ no.type.size := by
  obtain ⟨hyes, hno⟩ := Expr.size_type_ifElse cond h.here.checked.2
  cases hnoreturns : no.alwaysReturns with
  | false => exact .inr (.inr ⟨rfl, (hno hnoreturns).ge⟩)
  | true =>
    -- then the second arm leaves nothing
    have hnone := Expr.size_of_alwaysReturns (h.part (q := no) (by simp [Expr.parts])) hnoreturns
    by_cases hfirst : yes.alwaysReturns = true ∨ yes.type = .any
    · refine .inl ?_
      rw [Expr.type, if_pos (by simpa using hfirst), hnone]
    · rw [not_or, Bool.not_eq_true] at hfirst
      exact .inr (.inl ⟨hfirst.1, (hyes hfirst.1 fun hmasked => hfirst.2 hmasked.1).ge⟩)

theorem sizes_eq_length {es : List Expr} (h : ∀ e ∈ es, e.type ≠ .none) : Expr.sizes es = es.length := by
  induction es with
  | nil => rfl
  | cons e es ih =>
    have he := ValueType.size_eq_one (h e (List.mem_cons_self ..))
    rw [Expr.sizes, he, ih fun e he => h e (List.mem_cons_of_mem _ he), List.length_cons, Nat.add_comm]

/-- A return takes no more than its value. -/
theorem takenBy_returnOp {value : Expr} (h : checkReturn current value = .ok ()) :
    Operation.takenBy [returnOp current] ≤ value.type.size := by
  cases current with
  | none =>
    have hsize := ValueType.size_eq_of_require (h : value.type.require .uint64 = .ok ())
    rw [hsize]
    exact le_refl 1
  | some s => exact Nat.zero_le _

/-- If neither arm of a conditional has an end, then nothing is left at the block where they would meet; otherwise an arm
with an end carries what the conditional leaves. -/
theorem carried_ifElse {cond yes no : Expr} {y n : Fragment} {join : BlockId}
    (horderly : (Expr.ifElse cond yes no).Everywhere (Expr.Orderly current defined))
    (hyes : y.exit = none ↔ yes.alwaysReturns = true) (hno : n.exit = none ↔ no.alwaysReturns = true)
    (hopen : (yes.alwaysReturns && no.alwaysReturns) = true → g.IsOpen join) :
    (if yes.alwaysReturns && no.alwaysReturns then none else some join) = some join ∧
        ((Expr.ifElse cond yes no).type.size = 0 ∨
          y.exit ≠ none ∧ (Expr.ifElse cond yes no).type.size ≤ yes.type.size ∨
          n.exit ≠ none ∧ (Expr.ifElse cond yes no).type.size ≤ no.type.size) ∨
      (if yes.alwaysReturns && no.alwaysReturns then none else some join) = none ∧ g.IsOpen join := by
  by_cases hreturns : (yes.alwaysReturns && no.alwaysReturns) = true
  · exact .inr ⟨if_pos hreturns, hopen hreturns⟩
  · refine .inl ⟨if_neg hreturns, ?_⟩
    rcases size_type_ifElse_le horderly with hzero | ⟨hends, hle⟩ | ⟨hends, hle⟩
    · exact .inl hzero
    · exact .inr (.inl ⟨by simp [hyes, hends], hle⟩)
    · exact .inr (.inr ⟨by simp [hno, hends], hle⟩)

/-! ### What lists of trees carry -/

theorem RendersAll.carries {es : List Expr} (hcandid : ∀ e ∈ es, e.Everywhere Expr.Candid)
    (hes : ∀ e ∈ es, ∀ lo f hi, Renders g current e lo f hi → f.Carries g lo hi e.type.size)
    (h : RendersAll g current es lo fs hi) : CarryAll g lo fs es hi := by
  induction es generalizing lo fs with
  | nil =>
    cases h
    exact .nil _
  | cons e es ih =>
    cases h with
    | cons he hrest =>
      exact .cons (hes e (List.mem_cons_self ..) _ _ _ he) (he.spans (hcandid e (List.mem_cons_self ..)))
        (ih (fun e he => hcandid e (List.mem_cons_of_mem _ he)) (fun e he => hes e (List.mem_cons_of_mem _ he)) hrest)

/-- A sequence carries what its last part does. -/
theorem RendersSeq.carries {items : List Expr} (hcandid : ∀ e ∈ items, e.Everywhere Expr.Candid)
    (hitems : ∀ e ∈ items, ∀ lo f hi, Renders g current e lo f hi → f.Carries g lo hi e.type.size)
    (h : RendersSeq g current items lo f hi) : f.Carries g lo hi (Expr.lastType items).size := by
  induction items generalizing lo f with
  | nil => cases h
  | cons e items ih =>
    have hfirst := hitems e (List.mem_cons_self ..)
    cases h with
    | last he => exact hfirst _ _ _ he
    | cons he hlinked hrest =>
      have hcandid' : ∀ e ∈ items, e.Everywhere Expr.Candid := fun e he => hcandid e (List.mem_cons_of_mem _ he)
      have hlater := ih hcandid' (fun e he => hitems e (List.mem_cons_of_mem _ he)) hrest
      have hspans := hrest.spans (.refl g) fun e he' _ _ _ h => h.spans (hcandid' e he')
      have hseq := (hfirst _ _ _ he).seq (he.spans (hcandid e (List.mem_cons_self ..))) hlinked hlater hspans
      cases items with
      | nil => cases hrest
      | cons e' items =>
        rw [Expr.lastType]
        exact hseq.mono (Nat.le_add_left _ _)

/-! ### What trees carry -/

/-- The blocks of an expression that fits the stack and has passed the checks carry what its type says. -/
theorem Renders.carries (h : Renders g current e lo f hi) (horderly : e.Everywhere (Expr.Orderly current defined)) :
    f.Carries g lo hi e.type.size := by
  induction e using Expr.induction generalizing lo f hi with
  | int n =>
    cases h with
    | int hholds => exact carries_holds hholds rfl (le_refl 1)
  | bytes b =>
    cases h with
    | bytes hholds => exact carries_holds hholds rfl (le_refl 1)
  | op o args type returns ih =>
    obtain ⟨-, htypes, pushes, heffect, hsize, -⟩ := horderly.here.fits
    cases h with
    | op hall happlied =>
      have hcarry : CarryAll g lo _ args _ := hall.carries (fun e he => candid_of_orderly (horderly.part he))
        fun e he _ _ _ h => ih e he h (horderly.part he)
      refine hcarry.applied happlied ?_ fun _ => ?_
      · simp [Operation.takenBy, heffect, sizes_eq_length htypes]
      · simp only [Operation.takenBy, Operation.leftBy, heffect, sizes_eq_length htypes, Expr.type]
        omega
  | seq items ih =>
    cases h with
    | empty hholds => exact carries_holds hholds rfl (Nat.zero_le _)
    | seq hseq =>
      exact hseq.carries (fun e he => candid_of_orderly (horderly.part he))
        fun e he _ _ _ h => ih e he h (horderly.part he)
  | ifThen cond body ihcond ihbody =>
    have hordc := horderly.part (q := cond) (by simp [Expr.parts])
    have hordb := horderly.part (q := body) (by simp [Expr.parts])
    have hvalue : cond.type.size = 1 := ValueType.size_eq_of_require horderly.here.checked.1
    cases h with
    | ifThen hcond hbody hlast hbranch hjoined hholds =>
      have hcarries := ihcond hcond hordc
      rw [hvalue] at hcarries
      exact hcarries.ifThen (hcond.spans (candid_of_orderly hordc)) (ihbody hbody hordb)
        (hbody.spans (candid_of_orderly hordb)) hlast hbranch hjoined hholds
  | ifElse cond yes no ihcond ihyes ihno =>
    have hordc := horderly.part (q := cond) (by simp [Expr.parts])
    have hordy := horderly.part (q := yes) (by simp [Expr.parts])
    have hordn := horderly.part (q := no) (by simp [Expr.parts])
    have hvalue : cond.type.size = 1 := ValueType.size_eq_of_require horderly.here.checked.1
    cases h with
    | ifElse hcond hyes hno hlast hbranch hyes' hno' hholds hopen =>
      have hcarries := ihcond hcond hordc
      rw [hvalue] at hcarries
      exact hcarries.ifElse (hcond.spans (candid_of_orderly hordc)) (ihyes hyes hordy)
        (hyes.spans (candid_of_orderly hordy)) (ihno hno hordn) (hno.spans (candid_of_orderly hordn)) hlast hbranch
        hyes' hno' hholds (carried_ifElse horderly (hyes.exit_iff (candid_of_orderly hordy))
          (hno.exit_iff (candid_of_orderly hordn)) hopen)
  | ret value ih =>
    have htaken := takenBy_returnOp horderly.here.checked
    have hord := horderly.part (q := value) (by simp [Expr.parts])
    cases h with
    | ret hvalue happlied =>
      have hcarry : CarryAll g lo [_] [value] _ := .cons (ih hvalue hord) (hvalue.spans (candid_of_orderly hord)) (.nil _)
      have hsizes : Expr.sizes [value] = value.type.size := rfl
      refine hcarry.applied happlied (by rwa [hsizes]) fun _ => ?_
      rw [hsizes]
      exact Nat.le_add_right_of_le ((Nat.zero_add _).le.trans htaken)
  | retNothing =>
    have htaken : Operation.takenBy [returnOp current] = 0 := by
      have hcheck : checkReturnNone current = .ok () := horderly.here.checked
      cases current with
      | none => cases hcheck
      | some s => rfl
    cases h with
    | retNothing happlied =>
      have hnothing : CarryAll g lo [] [] lo := .nil lo
      exact hnothing.applied happlied htaken.le fun _ => by simp [htaken, Expr.type, ValueType.size]
  | call callee args ih =>
    cases h with
    | call hall happlied =>
      have hcarry := hall.carries (fun e he => candid_of_orderly (horderly.part he)) fun e he _ _ _ h => by
        obtain ⟨a, ha, rfl⟩ := List.mem_map.1 he
        exact ih a ha h (horderly.part he)
      -- the scan does not get past a call
      exact hcarry.applied happlied (Nat.zero_le _) fun hcalls => absurd rfl (hcalls _ (List.mem_cons_self ..))

end Compiler

end ScratchMachine
