import ScratchMachine.Proofs.Heights

/-!
# Types that say what is left

The type of an expression is meant to say whether it leaves a value.  It understates for two kinds of nodes; where
there are none of these, the number of values that a tree leaves is what its type says.

* `Expr.leaves_done_eq`: how many values there are past a tree.
* `Expr.leaves_leave_eq`: how many values there are when control leaves the subroutine inside a tree.
-/

namespace ScratchMachine.Expr

variable {counts : Counts} {current : Option Subroutine} {defined : Subroutine → Prop}

/-- The expression has no type but leaves a value: it reads a variable that has no type, or it is a conditional with
the type of its second arm, which always returns, in place of that of its first, which leaves a value of any type. -/
def understates : Expr → Bool
  | op o _ type _ => type = .none && o.stackEffect?.any (·.pushes = 1)
  | ifElse _ yes no => !yes.alwaysReturns && yes.type = .any && no.alwaysReturns
  | _ => false

/-- No expression within understates. -/
abbrev Honest (e : Expr) : Prop := e.Everywhere (·.understates = false)

/-- Past the expression there are as many values as its type says. -/
def Exact (counts : Counts) (e : Expr) : Prop := ∀ n, e.Leaves counts .done n → n = e.type.size

/-! ### Expressions in order -/

private theorem LeavesAll.eq_mul {es : List Expr} {n k : Nat} (h : LeavesAll counts es .done n)
    (hes : ∀ e ∈ es, ∀ n, e.Leaves counts .done n → n = k) : n = es.length * k := by
  induction es generalizing n with
  | nil =>
    cases h with
    | nil => rw [List.length_nil, Nat.zero_mul]
  | cons e rest ih =>
    cases h with
    | here _ hflow => exact absurd rfl hflow
    | cons he hrest =>
      have hfirst := hes e (List.mem_cons_self ..) _ he
      have hothers := ih hrest fun e' he' => hes e' (List.mem_cons_of_mem _ he')
      rw [hfirst, hothers, List.length_cons, Nat.succ_mul, Nat.add_comm]

theorem LeavesAll.eq_length {es : List Expr} {n : Nat} (h : LeavesAll counts es .done n)
    (hexact : ∀ e ∈ es, e.Exact counts) (htypes : ∀ e ∈ es, e.type ≠ .none) : n = es.length := by
  have hmul := h.eq_mul fun e he k hk => (hexact e he k hk).trans (ValueType.size_eq_one (htypes e he))
  rw [hmul, Nat.mul_one]

theorem LeavesAll.eq_zero {es : List Expr} {n : Nat} (h : LeavesAll counts es .done n)
    (hexact : ∀ e ∈ es, e.Exact counts) (htypes : ∀ e ∈ es, e.type = .none) : n = 0 := by
  have hmul := h.eq_mul fun e he k hk => (hexact e he k hk).trans (ValueType.size_eq_zero.2 (htypes e he))
  rw [hmul, Nat.mul_zero]

theorem type_of_checkItems {before after : List Expr} {e : Expr} {index : Nat}
    (h : Compiler.checkItems index (before ++ e :: after) = .ok ()) : ∀ e' ∈ before, e'.type = .none := by
  induction before generalizing index with
  | nil => simp
  | cons first before ih =>
    have hnext : first.type = .none ∧ Compiler.checkItems (index + 1) (before ++ e :: after) = .ok () := by
      cases before with
      | nil =>
        simp only [List.cons_append, List.nil_append, Compiler.checkItems] at h ⊢
        split at h
        · exact ⟨by assumption, h⟩
        · cases h
      | cons second before =>
        simp only [List.cons_append, Compiler.checkItems] at h ⊢
        split at h
        · exact ⟨by assumption, h⟩
        · cases h
    intro e' he'
    rcases List.mem_cons.1 he' with rfl | he'
    · exact hnext.1
    · exact ih hnext.2 e' he'

/-! ### One node -/

theorem pushes_eq {o : Operation} {args : List Expr} {type : ValueType} {returns : Bool} {pops pushes : Nat}
    (heffect : o.stackEffect? = some ⟨pops, pushes⟩) (hsize : type.size ≤ pushes) (hpushes : pushes ≤ 1) :
    pushes = type.size + if (op o args type returns).understates then 1 else 0 := by
  have hunder : (op o args type returns).understates = true ↔ type.size = 0 ∧ pushes = 1 := by
    simp [understates, heffect, ValueType.size_eq_zero]
  split
  · rename_i h
    obtain ⟨hzero, hone⟩ := hunder.1 h
    omega
  · rename_i h
    have hnot : ¬ (type.size = 0 ∧ pushes = 1) := fun h' => h (hunder.2 h')
    omega

theorem eq_zero_of_cond {cond : Expr} (hexact : cond.Exact counts) (hcheck : cond.type.require .uint64 = .ok ())
    {n : Nat} (h : cond.Leaves counts .done (n + 1)) : n = 0 := by
  have hone := hexact _ h
  rw [ValueType.size_eq_of_require hcheck] at hone
  exact Nat.succ.inj hone

/-- An arm past which control gets stands for as many values as the conditional, and one more if that understates. -/
theorem size_arm_eq {cond yes no : Expr} (h : (ifElse cond yes no).Everywhere (Orderly current defined)) :
    (yes.alwaysReturns = false →
      yes.type.size = (ifElse cond yes no).type.size + if (ifElse cond yes no).understates then 1 else 0) ∧
    (no.alwaysReturns = false →
      no.type.size = (ifElse cond yes no).type.size + if (ifElse cond yes no).understates then 1 else 0) := by
  obtain ⟨hyestype, hnotype⟩ := size_type_ifElse cond h.here.checked.2
  refine ⟨fun hyes => ?_, fun hno => ?_⟩
  · by_cases hmasked : yes.type = .any ∧ no.alwaysReturns = true
    · -- the type is that of the second arm, which has none
      have hnone := size_of_alwaysReturns (h.part (q := no) (by simp [parts])) hmasked.2
      rw [if_pos (by simp [understates, hyes, hmasked]), Expr.type, if_pos (by simp [hmasked.1]), hnone, hmasked.1]
      rfl
    · rw [if_neg (by simpa [understates, hyes] using hmasked)]
      exact hyestype hyes hmasked
  · rw [if_neg (by simp [understates, hno])]
    exact hnotype hno

/-! ### Past an expression -/

/-- Past an expression whose parts are honest there are as many values as its type says, and one more if it
understates. -/
theorem leaves_done_eq {e : Expr} {n : Nat} (h : e.Everywhere (Orderly current defined))
    (hparts : ∀ part ∈ e.parts, part.Honest) (hcounts : ∀ s, defined s → ∀ n, counts s.id n → n = s.returns.size)
    (hleaves : e.Leaves counts .done n) : n = e.type.size + if e.understates then 1 else 0 := by
  induction e using induction_parts generalizing n with
  | h e ih =>
    have hexact : ∀ part ∈ e.parts, part.Exact counts := by
      intro part hpart n hn
      have hhonest := hparts part hpart
      have heq := ih part hpart (h.part hpart) (fun q hq => hhonest.part hq) hn
      rwa [hhonest.here] at heq
    cases hleaves with
    | int k => rfl
    | bytes b => rfl
    | operand _ hflow => exact absurd rfl hflow
    | @op o args type returns effect n hall heffect' _ =>
      obtain ⟨-, hvalues, pushes, heffect, hsize, hpushes⟩ := h.here.fits
      cases heffect.symm.trans heffect'
      rw [hall.eq_length hexact hvalues, Nat.sub_self, Nat.zero_add, Expr.type]
      exact pushes_eq heffect hsize hpushes
    | @seq items _ _ hall =>
      rw [if_neg (by simp [understates]), Expr.type]
      rcases hall.last with ⟨rfl, rfl⟩ | ⟨init, e, n₁, n₂, rfl, hinit, he, rfl⟩
      · rfl
      -- only the last element of a sequence leaves anything
      · have hnone := hinit.eq_zero (fun e' he' => hexact e' (by simp [parts, he'])) (type_of_checkItems h.here.checked)
        rw [hexact e (by simp [parts]) n₂ he, hnone, Nat.zero_add, lastType_append, Nat.add_zero]
    | ifThenCond _ hflow => exact absurd rfl hflow
    | @ifThenBody cond body _ n n' hcond hbody =>
      obtain ⟨hcheck, hnone⟩ := h.here.checked
      rw [eq_zero_of_cond (hexact cond (by simp [parts])) hcheck hcond, hexact body (by simp [parts]) _ hbody, hnone]
      rfl
    | @ifThenSkip cond body n hcond => exact eq_zero_of_cond (hexact cond (by simp [parts])) h.here.checked.1 hcond
    | ifElseCond _ hflow => exact absurd rfl hflow
    | @ifElseYes cond yes no _ n n' hcond hyes =>
      rw [eq_zero_of_cond (hexact cond (by simp [parts])) h.here.checked.1 hcond, Nat.zero_add]
      rw [hexact yes (by simp [parts]) _ hyes]
      exact (size_arm_eq h).1 (hyes.not_alwaysReturns (h.part (by simp [parts])))
    | @ifElseNo cond yes no _ n n' hcond hno =>
      rw [eq_zero_of_cond (hexact cond (by simp [parts])) h.here.checked.1 hcond, Nat.zero_add]
      rw [hexact no (by simp [parts]) _ hno]
      exact (size_arm_eq h).2 (hno.not_alwaysReturns (h.part (by simp [parts])))
    | retValue _ hflow => exact absurd rfl hflow
    | argument _ hflow => exact absurd rfl hflow
    | @call callee args n n' hall hcount =>
      obtain ⟨hargs, hdefined⟩ := h.here.checked
      rw [hall.eq_length hexact h.here.fits, length_args hargs, Nat.sub_self, Nat.zero_add]
      exact hcounts callee hdefined n' hcount

/-- Past an honest expression there are as many values as its type says. -/
theorem exact_of_honest {e : Expr} (hhonest : e.Honest) (h : e.Everywhere (Orderly current defined))
    (hcounts : ∀ s, defined s → ∀ n, counts s.id n → n = s.returns.size) : e.Exact counts := by
  intro n hleaves
  have heq := leaves_done_eq h (fun part hpart => hhonest.part hpart) hcounts hleaves
  rwa [hhonest.here] at heq

/-! ### Out of a subroutine -/

/-- There is a return in the expression, with the values of this many operands around it still to be used. -/
inductive Returns : Expr → Nat → Prop
  | ret (value : Expr) : Returns (.ret value) 0
  | retNothing : Returns .retNothing 0
  | operand {o : Operation} {before after : List Expr} {e : Expr} {type : ValueType} {returns : Bool} {d : Nat} :
      Returns e d → Returns (.op o (before ++ e :: after) type returns) (before.length + d)
  | argument {callee : Subroutine} {args : List Arg} {before after : List Expr} {e : Expr} {d : Nat} :
      args.map Arg.pushed = before ++ e :: after → Returns e d → Returns (.call callee args) (before.length + d)
  | item {items : List Expr} {e : Expr} {d : Nat} : e ∈ items → Returns e d → Returns (.seq items) d
  | ifThen {cond body e : Expr} {d : Nat} : e ∈ [cond, body] → Returns e d → Returns (.ifThen cond body) d
  | ifElse {cond yes no e : Expr} {d : Nat} : e ∈ [cond, yes, no] → Returns e d → Returns (.ifElse cond yes no) d
  | value {value : Expr} {d : Nat} : Returns value d → Returns (.ret value) d

/-- When control leaves a subroutine inside an honest expression, there are as many values as it returns above those
of the operands that were still to be used. -/
theorem leaves_leave_eq {s : Subroutine} {e : Expr} {n : Nat} (h : e.Everywhere (Orderly (some s) defined))
    (hhonest : e.Honest) (hcounts : ∀ s, defined s → ∀ n, counts s.id n → n = s.returns.size)
    (hleaves : e.Leaves counts .leave n) : ∃ d, e.Returns d ∧ n = d + s.returns.size := by
  induction e using induction_parts generalizing n with
  | h e ih =>
    have hpart := fun part (hpart : part ∈ e.parts) n (hn : part.Leaves counts .leave n) =>
      ih part hpart (h.part hpart) (hhonest.part hpart) hn
    have hexact : ∀ part ∈ e.parts, part.Exact counts := fun part hpart =>
      exact_of_honest (hhonest.part hpart) (h.part hpart) hcounts
    cases hleaves with
    | @operand o args type returns _ n hargs _ =>
      obtain ⟨-, hvalues, -⟩ := h.here.fits
      -- control leaves inside one operand, and the values of those before it are still there
      obtain ⟨before, q, after, n₁, n₂, rfl, hbefore, hq, rfl⟩ := hargs.split (by simp)
      obtain ⟨d, hd, rfl⟩ := hpart q (by simp [parts]) n₂ hq
      rw [hbefore.eq_length (fun e' he' => hexact e' (by simp [parts, he'])) fun e' he' => hvalues e' (by simp [he'])]
      exact ⟨_, .operand hd, (Nat.add_assoc ..).symm⟩
    | @seq items _ n hitems =>
      obtain ⟨before, q, after, n₁, n₂, rfl, hbefore, hq, rfl⟩ := hitems.split (by simp)
      obtain ⟨d, hd, rfl⟩ := hpart q (by simp [parts]) n₂ hq
      have hnone := hbefore.eq_zero (fun e' he' => hexact e' (by simp [parts, he'])) (type_of_checkItems h.here.checked)
      exact ⟨d, .item (by simp) hd, by rw [hnone, Nat.zero_add]⟩
    | @argument callee args _ n hargs _ =>
      obtain ⟨before, q, after, n₁, n₂, hsplit, hbefore, hq, rfl⟩ := hargs.split (by simp)
      obtain ⟨d, hd, rfl⟩ := hpart q (by simp [parts, hsplit]) n₂ hq
      have hmem : ∀ e' ∈ before, e' ∈ args.map Arg.pushed := fun e' he' => by simp [hsplit, he']
      rw [hbefore.eq_length (fun e' he' => hexact e' (hmem e' he')) fun e' he' => h.here.fits e' (hmem e' he')]
      exact ⟨_, .argument hsplit hd, (Nat.add_assoc ..).symm⟩
    | @ifThenCond cond body _ n hleave _ =>
      obtain ⟨d, hd, rfl⟩ := hpart cond (by simp [parts]) n hleave
      exact ⟨d, .ifThen (by simp) hd, rfl⟩
    | @ifThenBody cond body _ n n' hdone hleave =>
      obtain ⟨d, hd, rfl⟩ := hpart body (by simp [parts]) n' hleave
      rw [eq_zero_of_cond (hexact cond (by simp [parts])) h.here.checked.1 hdone, Nat.zero_add]
      exact ⟨d, .ifThen (by simp) hd, rfl⟩
    | @ifElseCond cond yes no _ n hleave _ =>
      obtain ⟨d, hd, rfl⟩ := hpart cond (by simp [parts]) n hleave
      exact ⟨d, .ifElse (by simp) hd, rfl⟩
    | @ifElseYes cond yes no _ n n' hdone hleave =>
      obtain ⟨d, hd, rfl⟩ := hpart yes (by simp [parts]) n' hleave
      rw [eq_zero_of_cond (hexact cond (by simp [parts])) h.here.checked.1 hdone, Nat.zero_add]
      exact ⟨d, .ifElse (by simp) hd, rfl⟩
    | @ifElseNo cond yes no _ n n' hdone hleave =>
      obtain ⟨d, hd, rfl⟩ := hpart no (by simp [parts]) n' hleave
      rw [eq_zero_of_cond (hexact cond (by simp [parts])) h.here.checked.1 hdone, Nat.zero_add]
      exact ⟨d, .ifElse (by simp) hd, rfl⟩
    | @retValue value _ n hleave _ =>
      obtain ⟨d, hd, rfl⟩ := hpart value (by simp [parts]) n hleave
      exact ⟨d, .value hd, rfl⟩
    | @ret value n hdone =>
      refine ⟨0, .ret value, ?_⟩
      rw [hexact value (by simp [parts]) n hdone, size_of_checkReturn h.here.checked, Nat.zero_add]
    | retNothing =>
      refine ⟨0, .retNothing, ?_⟩
      rw [size_of_checkReturnNone h.here.checked]

end ScratchMachine.Expr
