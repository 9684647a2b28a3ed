import ScratchMachine.Proofs.Checking
import ScratchMachine.Proofs.Confinement

/-!
# How many values a tree leaves

The numbers of values with which control can leave a tree follow from the table of stack effects, whatever the types
of the nodes say.  Of trees whose nodes fit the stack and have passed the checks, these numbers are large enough for
all operations, so that a tree never takes anything off the stack that it found there.

* `Expr.Leaves`: how many values control can leave a tree with.
* `Expr.confined_behaviour`: a tree works on what it has put on the stack itself.
-/

namespace ScratchMachine

open Behaviour Effect

/-- How many values are on the stack of an expression that has this type. -/
def ValueType.size : ValueType → Nat
  | none => 0
  | uint64 | bytes | any => 1

theorem ValueType.size_le_one (t : ValueType) : t.size ≤ 1 := by cases t <;> decide

theorem ValueType.size_eq_zero {t : ValueType} : t.size = 0 ↔ t = none := by cases t <;> simp [size]

theorem ValueType.size_eq_one {t : ValueType} (h : t ≠ none) : t.size = 1 := by
  cases t with
  | none => exact absurd rfl h
  | _ => rfl

theorem ValueType.size_eq_of_accepts {s t : ValueType} (h : s.accepts t = true) : s.size = t.size := by
  cases s <;> cases t <;> first | rfl | cases h

theorem ValueType.size_eq_of_require {actual expected : ValueType} (h : actual.require expected = .ok ()) :
    actual.size = expected.size := by
  unfold require at h
  split at h
  · rename_i haccepts
    exact (size_eq_of_accepts haccepts).symm
  · cases h

/-- How many values the call of each subroutine can leave. -/
abbrev Counts := SubroutineId → Nat → Prop

namespace Expr

/-! ### Counting values -/

mutual

/-- Control can leave an expression in a way with this many values on the stack above those it found there. -/
inductive Leaves (counts : Counts) : Expr → Flow → Nat → Prop
  | int (k : UInt64) : Leaves counts (.int k) .done 1
  | bytes (b : List UInt8) : Leaves counts (.bytes b) .done 1
  | operand {o args type returns flow n} : LeavesAll counts args flow n → flow ≠ .done →
      Leaves counts (.op o args type returns) flow n
  | op {o args type returns effect n} : LeavesAll counts args .done n → o.stackEffect? = some effect →
      o.isTerminal = false → Leaves counts (.op o args type returns) .done (n - effect.pops + effect.pushes)
  | seq {items flow n} : LeavesAll counts items flow n → Leaves counts (.seq items) flow n
  | ifThenCond {cond body flow n} : Leaves counts cond flow n → flow ≠ .done → Leaves counts (.ifThen cond body) flow n
  | ifThenBody {cond body flow n n'} : Leaves counts cond .done (n + 1) → Leaves counts body flow n' →
      Leaves counts (.ifThen cond body) flow (n + n')
  | ifThenSkip {cond body n} : Leaves counts cond .done (n + 1) → Leaves counts (.ifThen cond body) .done n
  | ifElseCond {cond yes no flow n} : Leaves counts cond flow n → flow ≠ .done →
      Leaves counts (.ifElse cond yes no) flow n
  | ifElseYes {cond yes no flow n n'} : Leaves counts cond .done (n + 1) → Leaves counts yes flow n' →
      Leaves counts (.ifElse cond yes no) flow (n + n')
  | ifElseNo {cond yes no flow n n'} : Leaves counts cond .done (n + 1) → Leaves counts no flow n' →
      Leaves counts (.ifElse cond yes no) flow (n + n')
  | retValue {value flow n} : Leaves counts value flow n → flow ≠ .done → Leaves counts (.ret value) flow n
  | ret {value n} : Leaves counts value .done n → Leaves counts (.ret value) .leave n
  | retNothing : Leaves counts .retNothing .leave 0
  | argument {callee args flow n} : LeavesAll counts (args.map Arg.pushed) flow n → flow ≠ .done →
      Leaves counts (.call callee args) flow n
  | call {callee args n n'} : LeavesAll counts (args.map Arg.pushed) .done n → counts callee.id n' →
      Leaves counts (.call callee args) .done (n - callee.arity + n')

/-- The same for expressions that are evaluated in order. -/
inductive LeavesAll (counts : Counts) : List Expr → Flow → Nat → Prop
  | nil : LeavesAll counts [] .done 0
  | here {e rest flow n} : Leaves counts e flow n → flow ≠ .done → LeavesAll counts (e :: rest) flow n
  | cons {e rest flow n n'} : Leaves counts e .done n → LeavesAll counts rest flow n' →
      LeavesAll counts (e :: rest) flow (n + n')

end

variable {counts : Counts} {current : Option Subroutine} {defined : Subroutine → Prop}

/-- Of expressions in order, control leaves inside one after getting past those before it. -/
theorem LeavesAll.split {es : List Expr} {flow : Flow} {n : Nat} (h : LeavesAll counts es flow n) (hflow : flow ≠ .done) :
    ∃ before e after n₁ n₂, es = before ++ e :: after ∧ LeavesAll counts before .done n₁ ∧ Leaves counts e flow n₂ ∧
      n = n₁ + n₂ := by
  induction es generalizing n with
  | nil =>
    cases h
    exact absurd rfl hflow
  | cons e rest ih =>
    cases h with
    | here he _ => exact ⟨[], e, rest, 0, n, rfl, .nil, he, (Nat.zero_add n).symm⟩
    | @cons _ _ _ n n' he hrest =>
      obtain ⟨before, e', after, n₁, n₂, rfl, hbefore, he', rfl⟩ := ih hrest
      exact ⟨e :: before, e', after, n + n₁, n₂, rfl, .cons he hbefore, he', (Nat.add_assoc ..).symm⟩

theorem LeavesAll.last {es : List Expr} {n : Nat} (h : LeavesAll counts es .done n) :
    es = [] ∧ n = 0 ∨ ∃ init e n₁ n₂, es = init ++ [e] ∧ LeavesAll counts init .done n₁ ∧ Leaves counts e .done n₂ ∧
      n = n₁ + n₂ := by
  induction es generalizing n with
  | nil =>
    cases h with
    | nil => exact .inl ⟨rfl, rfl⟩
  | cons e rest ih =>
    cases h with
    | here _ hflow => exact absurd rfl hflow
    | @cons _ _ _ n n' he hrest =>
      rcases ih hrest with ⟨rfl, rfl⟩ | ⟨init, e', n₁, n₂, rfl, hinit, he', rfl⟩
      · exact .inr ⟨[], e, 0, n, rfl, .nil, he, by rw [Nat.zero_add, Nat.add_zero]⟩
      · exact .inr ⟨e :: init, e', n + n₁, n₂, rfl, .cons he hinit, he', (Nat.add_assoc ..).symm⟩

theorem lastType_append (items : List Expr) (e : Expr) : lastType (items ++ [e]) = e.type := by
  induction items with
  | nil => rw [List.nil_append, lastType]
  | cons first rest ih =>
    cases rest with
    | nil => rw [List.cons_append, List.nil_append, lastType, lastType]
    | cons second rest => rw [List.cons_append, List.cons_append, lastType, ← List.cons_append, ih]

/-! ### Trees that fit the stack -/

/-- An operation node takes what its operands leave, one value each, and leaves at least what its type says.  A call
takes what its arguments leave. -/
def FitsStack : Expr → Prop
  | op o args type returns => OwnControl o returns ∧ (∀ e ∈ args, e.type ≠ .none) ∧
    ∃ pushes, o.stackEffect? = some ⟨args.length, pushes⟩ ∧ type.size ≤ pushes ∧ pushes ≤ 1
  | call _ args => ∀ e ∈ args.map Arg.pushed, e.type ≠ .none
  | _ => True

theorem regular_of_fitsStack {e : Expr} (h : e.Everywhere FitsStack) : e.Regular := by
  induction e using Expr.induction with
  | int k => exact .int k
  | bytes b => exact .bytes b
  | op o args type returns ih => exact .op h.here.1 fun e he => ih e he (h.part he)
  | seq items ih => exact .seq fun e he => ih e he (h.part he)
  | ifThen cond body ihcond ihbody => exact .ifThen (ihcond (h.part (by simp [parts]))) (ihbody (h.part (by simp [parts])))
  | ifElse cond yes no ihcond ihyes ihno =>
    exact .ifElse (ihcond (h.part (by simp [parts]))) (ihyes (h.part (by simp [parts]))) (ihno (h.part (by simp [parts])))
  | ret value ih => exact .ret (ih (h.part (by simp [parts])))
  | retNothing => exact .retNothing
  | call callee args ih => exact .call fun a ha => ih a ha (h.part (List.mem_map_of_mem ha))

/-- An expression fits the stack and has passed the checks. -/
structure Orderly (current : Option Subroutine) (defined : Subroutine → Prop) (e : Expr) : Prop where
  fits : e.FitsStack
  checked : e.Checked current defined

/-- Control never gets past an orderly expression that always returns. -/
theorem Leaves.not_alwaysReturns {e : Expr} {n : Nat} (h : e.Everywhere (Orderly current defined))
    (hleaves : e.Leaves counts .done n) : e.alwaysReturns = false := by
  induction e using Expr.induction generalizing n with
  | int k => rfl
  | bytes b => rfl
  | op o args type returns ih =>
    obtain ⟨⟨hreturns, -⟩, -⟩ := h.here.fits
    cases hleaves with
    | operand _ hflow => exact absurd rfl hflow
    | op _ _ hterminal => rw [alwaysReturns, hreturns, hterminal]
  | seq items ih =>
    cases hleaves with
    | seq hall =>
      rw [alwaysReturns]
      rcases hall.last with ⟨rfl, -⟩ | ⟨init, e, n₁, n₂, rfl, -, he, -⟩
      · rfl
      · rw [lastReturns_append]
        exact ih e (by simp) (h.part (by simp [parts])) he
  | ifThen cond body _ _ => rfl
  | ifElse cond yes no _ ihyes ihno =>
    rw [alwaysReturns]
    cases hleaves with
    | ifElseCond _ hflow => exact absurd rfl hflow
    | ifElseYes _ hyes => rw [ihyes (h.part (by simp [parts])) hyes, Bool.false_and]
    | ifElseNo _ hno => rw [ihno (h.part (by simp [parts])) hno, Bool.and_false]
  | ret value _ =>
    cases hleaves with
    | retValue _ hflow => exact absurd rfl hflow
  | retNothing => cases hleaves
  | call callee args _ => rfl

theorem size_of_alwaysReturns {e : Expr} (h : e.Everywhere (Orderly current defined))
    (hreturns : e.alwaysReturns = true) : e.type.size = 0 := by
  induction e using Expr.induction with
  | int k => cases hreturns
  | bytes b => cases hreturns
  | op o args type returns _ =>
    obtain ⟨⟨howns, -⟩, -, pushes, heffect, hsize, -⟩ := h.here.fits
    rw [alwaysReturns, howns] at hreturns
    -- an operation that returns pushes nothing
    have hnone : pushes = 0 := by
      cases o with
      | retsub | ret | err => exact (congrArg StackEffect.pushes (Option.some.inj heffect)).symm
      | _ => cases hreturns
    rw [hnone] at hsize
    exact Nat.le_zero.1 hsize
  | seq items ih =>
    rw [alwaysReturns] at hreturns
    rcases List.eq_nil_or_concat items with rfl | ⟨init, e, rfl⟩
    · rfl
    · rw [List.concat_eq_append, lastReturns_append] at hreturns
      rw [Expr.type, List.concat_eq_append, lastType_append]
      exact ih e (by simp) (h.part (by simp [parts])) hreturns
  | ifThen cond body _ _ => cases hreturns
  | ifElse cond yes no _ _ ihno =>
    rw [alwaysReturns, Bool.and_eq_true] at hreturns
    rw [Expr.type, if_pos (by simp [hreturns.1])]
    exact ihno (h.part (by simp [parts])) hreturns.2
  | ret value _ => rfl
  | retNothing => rfl
  | call callee args _ => cases hreturns

/-- An arm past which control gets stands for as many values as the conditional, unless it is the first and may leave
a value of any type, and the second always returns. -/
theorem size_type_ifElse {yes no : Expr} (cond : Expr) (harms : Compiler.checkArms yes no = .ok ()) :
    (yes.alwaysReturns = false → ¬ (yes.type = .any ∧ no.alwaysReturns = true) →
      yes.type.size = (ifElse cond yes no).type.size) ∧
    (no.alwaysReturns = false → no.type.size = (ifElse cond yes no).type.size) := by
  have haccepts : yes.alwaysReturns = false → no.alwaysReturns = false → yes.type.size = no.type.size := by
    intro hyes hno
    unfold Compiler.checkArms at harms
    split at harms
    · rename_i hcheck
      rw [hyes, hno] at hcheck
      exact ValueType.size_eq_of_accepts hcheck
    · cases harms
  rw [Expr.type]
  split
  · rename_i hfirst
    rw [Bool.or_eq_true, decide_eq_true_eq] at hfirst
    refine ⟨fun hyes hmasked => ?_, fun _ => rfl⟩
    have hany := hfirst.resolve_left (by simp [hyes])
    refine haccepts hyes ?_
    rw [← Bool.not_eq_true]
    exact fun hno => hmasked ⟨hany, hno⟩
  · rename_i hfirst
    rw [Bool.or_eq_true, not_or, Bool.not_eq_true] at hfirst
    exact ⟨fun _ _ => rfl, fun hno => (haccepts hfirst.1 hno).symm⟩

/-! ### At least what the types say -/

theorem LeavesAll.length_le {es : List Expr} {n : Nat} (h : LeavesAll counts es .done n)
    (hes : ∀ e ∈ es, ∀ n, e.Leaves counts .done n → 1 ≤ n) : es.length ≤ n := by
  induction es generalizing n with
  | nil => exact Nat.zero_le n
  | cons e rest ih =>
    cases h with
    | here _ hflow => exact absurd rfl hflow
    | cons he hrest =>
      have hfirst := hes e (List.mem_cons_self ..) _ he
      have hothers := ih hrest fun e' he' => hes e' (List.mem_cons_of_mem _ he')
      rw [List.length_cons]
      omega

/-- Past an expression there are at least as many values as its type says. -/
theorem Leaves.size_le {e : Expr} {n : Nat} (h : e.Everywhere (Orderly current defined))
    (hcounts : ∀ s, defined s → ∀ n, counts s.id n → s.returns.size ≤ n) (hleaves : e.Leaves counts .done n) :
    e.type.size ≤ n := by
  induction e using Expr.induction generalizing n with
  | int k => cases hleaves; exact le_refl 1
  | bytes b => cases hleaves; exact le_refl 1
  | op o args type returns ih =>
    obtain ⟨-, -, pushes, heffect, hsize, -⟩ := h.here.fits
    cases hleaves with
    | operand _ hflow => exact absurd rfl hflow
    | op _ heffect' _ =>
      cases heffect.symm.trans heffect'
      exact le_trans hsize (Nat.le_add_left ..)
  | seq items ih =>
    cases hleaves with
    | seq hall =>
      rw [Expr.type]
      rcases hall.last with ⟨rfl, -⟩ | ⟨init, e, n₁, n₂, rfl, -, he, rfl⟩
      · exact Nat.zero_le n
      · rw [lastType_append]
        have hle := ih e (by simp) (h.part (by simp [parts])) he
        omega
  | ifThen cond body _ _ => exact Nat.zero_le n
  | ifElse cond yes no _ ihyes ihno =>
    obtain ⟨hyestype, hnotype⟩ := size_type_ifElse cond h.here.checked.2
    cases hleaves with
    | ifElseCond _ hflow => exact absurd rfl hflow
    | ifElseYes _ hyes =>
      have hpart := h.part (q := yes) (by simp [parts])
      have hle := ihyes hpart hyes
      -- an arm of any type leaves a value, and no type stands for more than one
      by_cases hmasked : yes.type = .any ∧ no.alwaysReturns = true
      · rw [hmasked.1] at hle
        exact le_trans (ValueType.size_le_one _) (le_trans hle (Nat.le_add_left ..))
      · have heq := hyestype (hyes.not_alwaysReturns hpart) hmasked
        omega
    | ifElseNo _ hno =>
      have hpart := h.part (q := no) (by simp [parts])
      have hle := ihno hpart hno
      have heq := hnotype (hno.not_alwaysReturns hpart)
      omega
  | ret value _ =>
    cases hleaves with
    | retValue _ hflow => exact absurd rfl hflow
  | retNothing => cases hleaves
  | call callee args _ =>
    cases hleaves with
    | argument _ hflow => exact absurd rfl hflow
    | call _ hcount => exact le_trans (hcounts callee h.here.checked.2 _ hcount) (Nat.le_add_left ..)

/-! ### What the behaviour does -/

/-- What is known of a call: it works on its arguments only, and comes back with as many values as are counted. -/
structure Lawful (calls : Calls) (counts : Counts) (s : Subroutine) : Prop where
  size_le : ∀ n, counts s.id n → s.returns.size ≤ n
  confined : ∀ flow : Flow, flow.goesOn = true →
    (calls s.id).Confined flow s.arity fun n => flow = .done ∧ counts s.id n

theorem confined_returning (flow : Flow) {inSubroutine : Bool} {k : Nat}
    (hk : flow.goesOn = false → inSubroutine = false → 1 ≤ k) :
    (returning inSubroutine).Confined flow k fun n => flow.goesOn = true → flow = .leave ∧ n = k := by
  cases inSubroutine with
  | true => exact confined_exit fun hleave _ => ⟨hleave, rfl⟩
  | false =>
    rw [returning, if_neg (by decide)]
    by_cases hgoes : flow.goesOn = true
    · -- a program that ends does not go on
      refine .of_not fun m m' h => ?_
      rw [perform] at h
      split at h
      all_goals
        rw [h.1] at hgoes
        cases hgoes
    · obtain ⟨k, rfl⟩ := Nat.exists_eq_add_of_le' (hk (by simpa using hgoes) rfl)
      refine confined_perform (confined_pop k) (fun _ v _ _ => ?_) fun _ _ h => absurd h hgoes
      exact confined_exit fun _ h => absurd h hgoes

theorem length_args {callee : Subroutine} {args : List Arg} (h : callee.checkArgs args = .ok ()) :
    (args.map Arg.pushed).length = callee.arity := by
  rw [List.length_map]
  unfold Subroutine.checkArgs at h
  split at h
  · assumption
  · cases h

theorem one_le_cond {cond : Expr} (h : cond.Everywhere (Orderly current defined))
    (hcheck : cond.type.require .uint64 = .ok ())
    (hcounts : ∀ s, defined s → ∀ n, counts s.id n → s.returns.size ≤ n) {n : Nat}
    (hleaves : cond.Leaves counts .done n) : 1 ≤ n := by
  have hle := hleaves.size_le h hcounts
  rwa [ValueType.size_eq_of_require hcheck] at hle

variable {calls : Calls} {inSubroutine : Bool} {flow : Flow}

theorem confined_behaviourAll {es : List Expr}
    (hdone : ∀ e ∈ es, (e.behaviour calls inSubroutine).Confined .done 0 (e.Leaves counts .done))
    (hes : ∀ e ∈ es, (e.behaviour calls inSubroutine).Confined flow 0
      fun n => flow.goesOn = true → e.Leaves counts flow n) :
    (behaviourAll calls inSubroutine es).Confined flow 0 fun n => flow.goesOn = true → LeavesAll counts es flow n := by
  induction es with
  | nil =>
    rw [behaviourAll]
    exact confined_skip fun hdone _ => hdone ▸ .nil
  | cons e rest ih =>
    rw [behaviourAll]
    refine (hdone e (List.mem_cons_self ..)).andThen (fun hne => ?_) fun n hn => ?_
    · exact (hes e (List.mem_cons_self ..)).imp fun n hn hgoes => .here (hn hgoes) hne
    · have hrest := ih (fun e' he' => hdone e' (List.mem_cons_of_mem _ he'))
        fun e' he' => hes e' (List.mem_cons_of_mem _ he')
      exact hrest.raise n fun m hm hgoes => .cons hn (hm hgoes)

theorem confined_behaviourAll_done {es : List Expr}
    (hes : ∀ e ∈ es, (e.behaviour calls inSubroutine).Confined .done 0 (e.Leaves counts .done)) :
    (behaviourAll calls inSubroutine es).Confined .done 0 (LeavesAll counts es .done) :=
  (confined_behaviourAll hes fun e he => (hes e he).imp fun _ hn _ => hn).imp fun _ hn => hn rfl

/-- Past operands that have types there are at least as many values as operands. -/
theorem LeavesAll.length_le_of_types {es : List Expr} {n : Nat} (h : LeavesAll counts es .done n)
    (hes : ∀ e ∈ es, e.Everywhere (Orderly current defined)) (htypes : ∀ e ∈ es, e.type ≠ .none)
    (hcounts : ∀ s, defined s → ∀ n, counts s.id n → s.returns.size ≤ n) : es.length ≤ n := by
  refine h.length_le fun e he k hk => ?_
  have hsize := hk.size_le (hes e he) hcounts
  rwa [ValueType.size_eq_one (htypes e he)] at hsize

/-- In this way of leaving it, an expression takes nothing off the stack that it found there, and if the program goes
on, then the number of values with which control leaves is counted. -/
def Framed (calls : Calls) (inSubroutine : Bool) (counts : Counts) (flow : Flow) (e : Expr) : Prop :=
  (e.behaviour calls inSubroutine).Confined flow 0 fun n => flow.goesOn = true → e.Leaves counts flow n

theorem Framed.past {e : Expr} (h : e.Framed calls inSubroutine counts .done) :
    (e.behaviour calls inSubroutine).Confined .done 0 (e.Leaves counts .done) := Confined.past h

theorem framed_op {o : Operation} {args : List Expr} {type : ValueType} {returns : Bool}
    (hfits : (op o args type returns).FitsStack) (hlength : ∀ n, LeavesAll counts args .done n → args.length ≤ n)
    (hdone : ∀ e ∈ args, e.Framed calls inSubroutine counts .done)
    (hargs : ∀ e ∈ args, e.Framed calls inSubroutine counts flow) :
    (op o args type returns).Framed calls inSubroutine counts flow := by
  obtain ⟨howns, -, pushes, heffect, -, -⟩ := hfits
  have hpast := fun e he => (hdone e he).past
  rw [Framed, Expr.behaviour]
  refine (confined_behaviourAll_done hpast).andThen (fun hne => ?_) fun n hn => ?_
  · exact (confined_behaviourAll hpast hargs).imp fun n hn hgoes => .operand (hn hgoes) hne
  -- every operand leaves a value, so the operation finds all that it pops
  · refine (Operation.confined_behaviour heffect howns.2.2.1 (hlength n hn) calls flow).imp fun n' hn' hgoes => ?_
    obtain ⟨rfl, hterminal, rfl⟩ := hn' hgoes
    exact .op hn heffect hterminal

theorem framed_ifThen {cond body : Expr} (hone : ∀ n, cond.Leaves counts .done n → 1 ≤ n)
    (hdone : cond.Framed calls inSubroutine counts .done) (hcond : cond.Framed calls inSubroutine counts flow)
    (hbody : body.Framed calls inSubroutine counts flow) : (ifThen cond body).Framed calls inSubroutine counts flow := by
  rw [Framed, Expr.behaviour]
  refine hdone.past.andThen (fun hne => ?_) fun n hn => ?_
  · exact hcond.imp fun n hn hgoes => .ifThenCond (hn hgoes) hne
  -- a condition leaves a value, and that is the one by which the way is chosen
  · obtain ⟨n, rfl⟩ := Nat.exists_eq_add_of_le' (hone n hn)
    refine confined_choose (hbody.raise n fun m hm hgoes => .ifThenBody hn (hm hgoes))
      (confined_skip fun hdone _ => ?_) fun _ => Flow.elim_of_goesOn
    subst hdone
    exact .ifThenSkip hn

theorem framed_ifElse {cond yes no : Expr} (hone : ∀ n, cond.Leaves counts .done n → 1 ≤ n)
    (hdone : cond.Framed calls inSubroutine counts .done) (hcond : cond.Framed calls inSubroutine counts flow)
    (hyes : yes.Framed calls inSubroutine counts flow) (hno : no.Framed calls inSubroutine counts flow) :
    (ifElse cond yes no).Framed calls inSubroutine counts flow := by
  rw [Framed, Expr.behaviour]
  refine hdone.past.andThen (fun hne => ?_) fun n hn => ?_
  · exact hcond.imp fun n hn hgoes => .ifElseCond (hn hgoes) hne
  · obtain ⟨n, rfl⟩ := Nat.exists_eq_add_of_le' (hone n hn)
    exact confined_choose (hyes.raise n fun m hm hgoes => .ifElseYes hn (hm hgoes))
      (hno.raise n fun m hm hgoes => .ifElseNo hn (hm hgoes)) fun _ => Flow.elim_of_goesOn

theorem framed_ret {value : Expr} (hone : flow.goesOn = false → inSubroutine = false →
      ∀ n, value.Leaves counts .done n → 1 ≤ n) (hdone : value.Framed calls inSubroutine counts .done)
    (hvalue : value.Framed calls inSubroutine counts flow) : (ret value).Framed calls inSubroutine counts flow := by
  rw [Framed, Expr.behaviour]
  refine hdone.past.andThen (fun hne => ?_) fun n hn => ?_
  · exact hvalue.imp fun n hn hgoes => .retValue (hn hgoes) hne
  · refine (confined_returning flow fun hfalse hmain => hone hfalse hmain n hn).imp fun n' hn' hgoes => ?_
    obtain ⟨rfl, rfl⟩ := hn' hgoes
    exact .ret hn

theorem framed_call {callee : Subroutine} {args : List Arg}
    (hlength : ∀ n, LeavesAll counts (args.map Arg.pushed) .done n → callee.arity ≤ n)
    (hdone : ∀ e ∈ args.map Arg.pushed, e.Framed calls inSubroutine counts .done)
    (hargs : ∀ e ∈ args.map Arg.pushed, e.Framed calls inSubroutine counts flow)
    (hcall : (calls callee.id).Confined flow callee.arity
      fun n => flow.goesOn = true → flow = .done ∧ counts callee.id n) :
    (call callee args).Framed calls inSubroutine counts flow := by
  have hpast := fun e he => (hdone e he).past
  rw [Framed, Expr.behaviour, Arg.behaviourAll_eq]
  refine (confined_behaviourAll_done hpast).andThen (fun hne => ?_) fun n hn => ?_
  · exact (confined_behaviourAll hpast hargs).imp fun n hn hgoes => .argument (hn hgoes) hne
  -- what else the arguments left stays below the call
  · have hraised := hcall.raise (n - callee.arity) (q := fun n' => flow.goesOn = true →
        (call callee args).Leaves counts flow n') fun m hm hgoes => by
      obtain ⟨rfl, hcount⟩ := hm hgoes
      exact .call hn hcount
    rwa [Nat.sub_add_cancel (hlength n hn)] at hraised

/-- In whatever way control leaves it, an expression never takes anything off the stack that it found there.  If the
program goes on, then the number of values with which control leaves is counted. -/
theorem framed_behaviour {e : Expr} (h : e.Everywhere (Orderly current defined))
    (hcalls : ∀ s, defined s → Lawful calls counts s)
    (hends : flow.goesOn = false → inSubroutine = current.isSome ∧
      ∀ s, defined s → (calls s.id).Confined flow s.arity fun _ => True) :
    e.Framed calls inSubroutine counts flow := by
  have hcounts : ∀ s, defined s → ∀ n, counts s.id n → s.returns.size ≤ n := fun s hs => (hcalls s hs).size_le
  induction e using Expr.induction generalizing flow with
  | int k =>
    rw [Framed, Expr.behaviour]
    refine confined_perform (confined_push _ 0) (fun _ _ _ _ => ?_) fun _ => Flow.elim_of_goesOn
    exact confined_skip fun hdone _ => hdone ▸ .int k
  | bytes b =>
    rw [Framed, Expr.behaviour]
    refine confined_perform (confined_push _ 0) (fun _ _ _ _ => ?_) fun _ => Flow.elim_of_goesOn
    exact confined_skip fun hdone _ => hdone ▸ .bytes b
  | op o args type returns ih =>
    have hlength : ∀ n, LeavesAll counts args .done n → args.length ≤ n := fun n hn =>
      hn.length_le_of_types (fun e he => h.part he) h.here.fits.2.1 hcounts
    exact framed_op h.here.fits hlength (fun e he => ih e he (h.part he) Flow.elim_done)
      fun e he => ih e he (h.part he) hends
  | seq items ih =>
    rw [Framed, Expr.behaviour]
    exact (confined_behaviourAll (fun e he => (ih e he (h.part he) Flow.elim_done).past)
      fun e he => ih e he (h.part he) hends).imp fun n hn hgoes => .seq (hn hgoes)
  | ifThen cond body ihcond ihbody =>
    have hcond := h.part (q := cond) (by simp [parts])
    exact framed_ifThen (fun n => one_le_cond hcond h.here.checked.1 hcounts)
      (ihcond hcond Flow.elim_done) (ihcond hcond hends)
      (ihbody (h.part (by simp [parts])) hends)
  | ifElse cond yes no ihcond ihyes ihno =>
    have hcond := h.part (q := cond) (by simp [parts])
    exact framed_ifElse (fun n => one_le_cond hcond h.here.checked.1 hcounts)
      (ihcond hcond Flow.elim_done) (ihcond hcond hends)
      (ihyes (h.part (by simp [parts])) hends) (ihno (h.part (by simp [parts])) hends)
  | ret value ih =>
    have hvalue := h.part (q := value) (by simp [parts])
    refine framed_ret (fun hfalse hfree n => ?_) (ih hvalue Flow.elim_done) (ih hvalue hends)
    -- the main program ends with a value, which it has
    have hcurrent : current = none := by simpa [hfree] using (hends hfalse).1
    have hcheck := h.here.checked
    rw [hcurrent] at hcheck
    exact one_le_cond hvalue hcheck hcounts
  | retNothing =>
    rw [Framed, Expr.behaviour]
    refine (confined_returning flow fun hfalse hfree => ?_).imp fun n' hn' hgoes => ?_
    · have hcurrent : current = none := by simpa [hfree] using (hends hfalse).1
      cases hcurrent ▸ h.here.checked
    · obtain ⟨rfl, rfl⟩ := hn' hgoes
      exact .retNothing
  | call callee args ih =>
    have hpart : ∀ a ∈ args, a.pushed.Everywhere (Orderly current defined) := fun a ha =>
      h.part (q := a.pushed) (List.mem_map_of_mem ha)
    refine framed_call (fun n hn => ?_)
      (List.forall_mem_map.2 fun a ha => ih a ha (hpart a ha) Flow.elim_done)
      (List.forall_mem_map.2 fun a ha => ih a ha (hpart a ha) hends) ?_
    · rw [← length_args h.here.checked.1]
      exact hn.length_le_of_types (fun e he => h.part he) h.here.fits hcounts
    · by_cases hgoes : flow.goesOn = true
      · exact ((hcalls callee h.here.checked.2).confined flow hgoes).imp fun n hn _ => hn
      · rw [Bool.not_eq_true] at hgoes
        exact ((hends hgoes).2 callee h.here.checked.2).imp fun n _ => Flow.elim_of_goesOn hgoes

/-- An expression never takes anything off the stack that it found there, and control leaves it with a number of
values that is counted. -/
theorem confined_behaviour {e : Expr} (h : e.Everywhere (Orderly current defined))
    (hcalls : ∀ s, defined s → Lawful calls counts s) (hflow : flow.goesOn = true) :
    (e.behaviour calls inSubroutine).Confined flow 0 (e.Leaves counts flow) := by
  refine (framed_behaviour h hcalls fun hends => ?_).imp fun n hn => hn hflow
  cases hflow.symm.trans hends

/-! ### Leaving a subroutine -/

theorem size_of_checkReturn {s : Subroutine} {value : Expr} (h : Compiler.checkReturn (some s) value = .ok ()) :
    value.type.size = s.returns.size := by
  unfold Compiler.checkReturn at h
  dsimp only at h
  split at h
  · cases h
  · exact ValueType.size_eq_of_require h

theorem size_of_checkReturnNone {s : Subroutine} (h : Compiler.checkReturnNone (some s) = .ok ()) :
    s.returns.size = 0 := by
  unfold Compiler.checkReturnNone at h
  dsimp only at h
  split at h
  · rename_i hnone
    rw [hnone]
    rfl
  · cases h

/-- When control leaves a subroutine inside an expression, there are at least as many values as it returns. -/
theorem Leaves.size_returns_le {s : Subroutine} {e : Expr} {n : Nat} (h : e.Everywhere (Orderly (some s) defined))
    (hcounts : ∀ s, defined s → ∀ n, counts s.id n → s.returns.size ≤ n) (hleaves : e.Leaves counts .leave n) :
    s.returns.size ≤ n := by
  induction e using induction_parts generalizing n with
  | h e ih =>
    have hall : ∀ es n, (∀ e' ∈ es, e' ∈ e.parts) → LeavesAll counts es .leave n → s.returns.size ≤ n := by
      intro es n hes hall
      obtain ⟨before, q, after, n₁, n₂, rfl, -, hq, rfl⟩ := hall.split (by simp)
      have hq' : q ∈ e.parts := hes q (by simp)
      exact le_trans (ih q hq' (h.part hq') hq) (Nat.le_add_left ..)
    cases hleaves with
    | operand hargs _ => exact hall _ _ (fun _ => id) hargs
    | seq hitems => exact hall _ _ (fun _ => id) hitems
    | argument hargs _ => exact hall _ _ (fun _ => id) hargs
    | @ifThenCond cond body _ _ hcond _ => exact ih cond (by simp [parts]) (h.part (by simp [parts])) hcond
    | @ifThenBody cond body _ n n' _ hbody =>
      exact le_trans (ih body (by simp [parts]) (h.part (by simp [parts])) hbody) (Nat.le_add_left ..)
    | @ifElseCond cond yes no _ _ hcond _ => exact ih cond (by simp [parts]) (h.part (by simp [parts])) hcond
    | @ifElseYes cond yes no _ n n' _ hyes =>
      exact le_trans (ih yes (by simp [parts]) (h.part (by simp [parts])) hyes) (Nat.le_add_left ..)
    | @ifElseNo cond yes no _ n n' _ hno =>
      exact le_trans (ih no (by simp [parts]) (h.part (by simp [parts])) hno) (Nat.le_add_left ..)
    | @retValue value _ _ hvalue _ => exact ih value (by simp [parts]) (h.part (by simp [parts])) hvalue
    | @ret value _ hvalue =>
      rw [← size_of_checkReturn h.here.checked]
      exact hvalue.size_le (h.part (by simp [parts])) hcounts
    | retNothing =>
      rw [size_of_checkReturnNone h.here.checked]

end Expr

end ScratchMachine
