import ScratchMachine.Proofs.Acceptance

/-!
# Replacing parts of trees

A part of a tree, at any depth, is replaced by an expression of the same type.  The checks of the nodes above see no
difference, so a tree that a compiler accepts is still accepted.

* `Expr.Replaces`: one tree is the other with a part replaced.
* `Expr.Detour`: an access to a slot by its number is replaced by one that takes the number off the stack.
* `Compiler.Lowerable.detour`: with such replacements, a tree that is lowered stays one.
-/

namespace ScratchMachine

open Compiler

namespace Expr

/-! ### Nodes with other parts -/

/-- Two expressions are the same but for their parts. -/
inductive SameNode : Expr → Expr → Prop
  | op {o args args' type returns} : SameNode (.op o args type returns) (.op o args' type returns)
  | seq {items items'} : SameNode (.seq items) (.seq items')
  | ifThen {cond body cond' body'} : SameNode (.ifThen cond body) (.ifThen cond' body')
  | ifElse {cond yes no cond' yes' no'} : SameNode (.ifElse cond yes no) (.ifElse cond' yes' no')
  | ret {value value'} : SameNode (.ret value) (.ret value')

/-- Two expressions have the same type, and control gets past both of them or past neither. -/
structure Resembles (e e' : Expr) : Prop where
  type_eq : e'.type = e.type
  returns_eq : e'.alwaysReturns = e.alwaysReturns

theorem Resembles.refl (e : Expr) : e.Resembles e := ⟨rfl, rfl⟩

theorem forall₂_split {R : Expr → Expr → Prop} (hrefl : ∀ e, R e e) {part part' : Expr} (h : R part part')
    (before after : List Expr) : List.Forall₂ R (before ++ part :: after) (before ++ part' :: after) := by
  induction before with
  | nil => exact .cons h (List.forall₂_same.2 fun e _ => hrefl e)
  | cons e before ih => exact .cons (hrefl e) ih

section Lists

variable {es es' : List Expr}

theorem Resembles.forall {P : Expr → Prop} (h : List.Forall₂ Resembles es es')
    (hP : ∀ {e e'}, e.Resembles e' → P e → P e') (hes : ∀ e ∈ es, P e) : ∀ e' ∈ es', P e' := by
  induction h with
  | nil => simp
  | cons hfirst _ ih =>
    obtain ⟨hhere, hrest⟩ := List.forall_mem_cons.1 hes
    exact List.forall_mem_cons.2 ⟨hP hfirst hhere, ih hrest⟩

theorem Resembles.dropLast (h : List.Forall₂ Resembles es es') :
    List.Forall₂ Resembles es.dropLast es'.dropLast := by
  induction h with
  | nil => exact .nil
  | cons hfirst hrest ih =>
    cases hrest with
    | nil => exact .nil
    | cons hsecond hrest => exact .cons hfirst ih

theorem lastType_eq (h : List.Forall₂ Resembles es es') : lastType es' = lastType es := by
  induction h with
  | nil => rfl
  | cons hfirst hrest ih =>
    cases hrest with
    | nil => rw [lastType, lastType, hfirst.type_eq]
    | cons hsecond hrest => rwa [lastType, lastType]

theorem lastReturns_eq (h : List.Forall₂ Resembles es es') : lastReturns es' = lastReturns es := by
  induction h with
  | nil => rfl
  | cons hfirst hrest ih =>
    cases hrest with
    | nil => rw [lastReturns, lastReturns, hfirst.returns_eq]
    | cons hsecond hrest => rwa [lastReturns, lastReturns]

theorem checkItems_eq_ok {index : Nat} (h : List.Forall₂ Resembles es es') (hes : checkItems index es = .ok ()) :
    checkItems index es' = .ok () := by
  induction h generalizing index with
  | nil => rfl
  | cons hfirst hrest ih =>
    cases hrest with
    | nil => rfl
    | cons hsecond hrest =>
      rw [checkItems] at hes ⊢
      split at hes
      · rename_i htype
        rw [hfirst.type_eq, if_pos htype]
        exact ih hes
      · cases hes

end Lists

namespace SameNode

variable {e e' : Expr}

theorem resembles (h : SameNode e e') (hparts : List.Forall₂ Resembles e.parts e'.parts) : e.Resembles e' := by
  cases h with
  | op | ifThen | ret => exact ⟨rfl, rfl⟩
  | seq => exact ⟨lastType_eq hparts, lastReturns_eq hparts⟩
  | ifElse =>
    obtain _ | ⟨-, _ | ⟨hyes, _ | ⟨hno, -⟩⟩⟩ := hparts
    exact ⟨by rw [type, type, hyes.type_eq, hyes.returns_eq, hno.type_eq],
      by rw [alwaysReturns, alwaysReturns, hyes.returns_eq, hno.returns_eq]⟩

theorem fitsStack (h : SameNode e e') (hparts : List.Forall₂ Resembles e.parts e'.parts) (he : e.FitsStack) :
    e'.FitsStack := by
  cases h with
  | @op o args args' type returns =>
    obtain ⟨howns, hvalues, pushes, heffect, hpushes⟩ := he
    refine ⟨howns, Resembles.forall hparts (fun hp hne => by rwa [hp.type_eq]) hvalues, pushes, ?_, hpushes⟩
    have hlength : args.length = args'.length := hparts.length_eq
    rwa [← hlength]
  | _ => trivial

theorem checked (h : SameNode e e') (hparts : List.Forall₂ Resembles e.parts e'.parts) {current : Option Subroutine}
    {defined : Subroutine → Prop} (he : e.Checked current defined) : e'.Checked current defined := by
  cases h with
  | op => trivial
  | seq => exact checkItems_eq_ok hparts he
  | ifThen =>
    obtain _ | ⟨hcond, _ | ⟨hbody, -⟩⟩ := hparts
    exact ⟨by rw [hcond.type_eq]; exact he.1, by rw [hbody.type_eq]; exact he.2⟩
  | @ifElse cond yes no cond' yes' no' =>
    obtain _ | ⟨hcond, _ | ⟨hyes, _ | ⟨hno, -⟩⟩⟩ := hparts
    refine ⟨by rw [hcond.type_eq]; exact he.1, ?_⟩
    have harms := he.2
    unfold checkArms at harms ⊢
    rw [hyes.returns_eq, hno.returns_eq, hyes.type_eq, hno.type_eq]
    split at harms
    · rename_i hfit
      rw [if_pos hfit]
    · cases harms
  | ret =>
    obtain _ | ⟨hvalue, -⟩ := hparts
    have hcheck : checkReturn current _ = .ok () := he
    show checkReturn current _ = .ok ()
    unfold checkReturn at hcheck ⊢
    cases current with
    | none => rwa [hvalue.type_eq]
    | some s =>
      dsimp only at hcheck ⊢
      split at hcheck
      · cases hcheck
      · rename_i hreturns
        rwa [if_neg hreturns, hvalue.type_eq]

theorem admitted (h : SameNode e e') (hparts : List.Forall₂ Resembles e.parts e'.parts) {current : Option Subroutine}
    {options : Options} (he : e.Admitted current options) : e'.Admitted current options := by
  have hends : ∀ {q q' : Expr}, q.Resembles q' → q.alwaysReturns = false → q'.alwaysReturns = false :=
    fun hq hends => hq.returns_eq.trans hends
  cases h with
  | op => exact ⟨Resembles.forall hparts hends he.1, he.2⟩
  | seq => exact Resembles.forall (Resembles.dropLast hparts) hends he
  | ifThen =>
    obtain _ | ⟨hcond, -⟩ := hparts
    exact hends hcond he
  | ifElse =>
    obtain _ | ⟨hcond, -⟩ := hparts
    exact hends hcond he
  | ret =>
    obtain _ | ⟨hvalue, -⟩ := hparts
    exact ⟨hends hvalue he.1, he.2⟩

theorem eq_of_parts (h : SameNode e e') (hparts : e.parts = e'.parts) : e = e' := by
  cases h with
  | _ => simp_all [parts]

end SameNode

/-! ### Replaced parts -/

/-- One expression is the other with a part of it, or the whole, replaced by what it is related to. -/
inductive Replaces (R : Expr → Expr → Prop) : Expr → Expr → Prop
  | here {e e'} : R e e' → Replaces R e e'
  | part {e e' part part'} (before after : List Expr) : SameNode e e' → e.parts = before ++ part :: after →
      e'.parts = before ++ part' :: after → Replaces R part part' → Replaces R e e'

/-- An access to a slot by its number, and the same access with the number taken off the stack. -/
inductive Detour : Expr → Expr → Prop
  | load (slot : UInt64) (type : ValueType) :
      Detour (.op (.load slot) [] type false) (.op .loads [.int slot] type false)
  | store {slot : UInt64} {value : Expr} : value.Honest →
      Detour (.op (.store slot) [value] .none false) (.op .stores [.int slot, value] .none false)

namespace Replaces

variable {R R' : Expr → Expr → Prop} {e e' : Expr}

/-- What is replaced by itself need not be replaced. -/
theorem imp_or_eq (h : Replaces R e e') (himp : ∀ {q q'}, R q q' → R' q q' ∨ q = q') :
    Replaces R' e e' ∨ e = e' := by
  induction h with
  | here h => exact (himp h).imp_left .here
  | part before after hnode hparts hparts' _ ih =>
    rcases ih with hpart | rfl
    · exact .inl (.part before after hnode hparts hparts' hpart)
    · exact .inr (hnode.eq_of_parts (hparts.trans hparts'.symm))

theorem resembles (h : Replaces R e e') (hR : ∀ {q q'}, R q q' → q.Resembles q') : e.Resembles e' := by
  induction h with
  | here h => exact hR h
  | part before after hnode hparts hparts' _ ih =>
    refine hnode.resembles ?_
    rw [hparts, hparts']
    exact forall₂_split .refl ih _ _

/-- What holds everywhere still does, if it holds within what takes the place of a part and does not depend on more
than the types of parts and whether control gets past them. -/
theorem everywhere {P : Expr → Prop} (h : Replaces R e e') (hR : ∀ {q q'}, R q q' → q.Resembles q')
    (hhere : ∀ {q q'}, R q q' → q.Everywhere P → q'.Everywhere P)
    (hnode : ∀ {q q'}, SameNode q q' → List.Forall₂ Resembles q.parts q'.parts → P q → P q') (he : e.Everywhere P) :
    e'.Everywhere P := by
  induction h with
  | here h => exact hhere h he
  | @part e e' part part' before after hsame hparts hparts' hpart ih =>
    have hforall : List.Forall₂ Resembles e.parts e'.parts := by
      rw [hparts, hparts']
      exact forall₂_split .refl (hpart.resembles hR) _ _
    refine .intro (hnode hsame hforall he.here) fun q hq => ?_
    rw [hparts', List.mem_append, List.mem_cons] at hq
    rcases hq with hq | rfl | hq
    · exact he.part (by rw [hparts]; simp [hq])
    · exact ih (he.part (by rw [hparts]; simp))
    · exact he.part (by rw [hparts]; simp [hq])

end Replaces

/-! ### Detours -/

namespace Detour

variable {e e' : Expr}

theorem resembles (h : Detour e e') : e.Resembles e' := by
  cases h with
  | _ => exact ⟨rfl, rfl⟩

/-- What holds everywhere still does if it holds of numbers and of the access that takes a detour. -/
theorem everywhere {P : Expr → Prop} (h : Detour e e') (hint : ∀ n, P (.int n)) (haccess : P e → P e')
    (he : e.Everywhere P) : e'.Everywhere P := by
  have hnumber : ∀ n, (Expr.int n).Everywhere P := fun n => .intro (hint n) (by simp [parts])
  cases h with
  | load slot type => exact .intro (haccess he.here) (by simp [parts, hnumber])
  | @store slot value =>
    have hvalue := he.part (q := value) (by simp [parts])
    exact .intro (haccess he.here) (by simp [parts, hnumber, hvalue])

theorem fitsStack (h : Detour e e') (he : e.FitsStack) : e'.FitsStack := by
  cases h with
  | load slot type =>
    exact ⟨⟨rfl, rfl, by simp, by simp⟩, by simp [Expr.type], 1, rfl, type.size_le_one, le_refl 1⟩
  | store =>
    obtain ⟨-, hvalues, -⟩ := he
    exact ⟨⟨rfl, rfl, by simp, by simp⟩, by simpa [type] using hvalues, 0, rfl, le_refl 0, Nat.zero_le 1⟩

theorem admitted (h : Detour e e') {current : Option Subroutine} {options : Options} (hversion : 5 ≤ options.version)
    (he : e.Admitted current options) : e'.Admitted current options := by
  cases h with
  | load slot type => exact ⟨by simp [alwaysReturns], if_pos hversion⟩
  | store => exact ⟨by simpa [alwaysReturns] using he.1, if_pos hversion⟩

end Detour

end Expr

/-- What a tree without calls is that a compiler lowers. -/
structure Compiler.Lowerable {σ : Type} (c : Compiler σ) (e : Expr) : Prop where
  fits : e.Everywhere Expr.FitsStack
  free : e.CallFree
  accepted : c.Accepts e

namespace Compiler.Lowerable

variable {σ : Type} {c : Compiler σ} {e e' : Expr}

/-- Detours keep a tree one that is lowered. -/
theorem detour (h : c.Lowerable e) (hversion : 5 ≤ c.options.version) (hreplaces : Expr.Replaces Expr.Detour e e') :
    c.Lowerable e' where
  fits := hreplaces.everywhere Expr.Detour.resembles (fun hd => hd.everywhere (fun _ => trivial) hd.fitsStack)
    Expr.SameNode.fitsStack h.fits
  free := hreplaces.everywhere Expr.Detour.resembles
    (fun hd => hd.everywhere (by simp) fun _ => by cases hd <;> simp) (fun hsame _ _ => by cases hsame <;> simp) h.free
  accepted := hreplaces.everywhere Expr.Detour.resembles
    (fun hd => hd.everywhere (fun _ => ⟨trivial, trivial⟩)
      fun hq => ⟨by cases hd <;> trivial, hd.admitted hversion hq.2⟩)
    (fun hsame hparts hq => ⟨hsame.checked hparts hq.1, hsame.admitted hparts hq.2⟩) h.accepted

/-- Without a call, nothing depends on the subroutines. -/
theorem orderly (h : c.Lowerable e) : e.Everywhere (Expr.Orderly c.current fun _ => False) := by
  refine ((h.fits.and h.accepted).and h.free).imp fun q hq => ⟨hq.1.1, ?_⟩
  cases q with
  | call callee args => exact absurd rfl (hq.2 callee args)
  | _ => exact hq.1.2.1

end Compiler.Lowerable

end ScratchMachine
