import ScratchMachine.Proofs.OperationText

/-!
# What a listing shows

A listing is cut into lines again, and a line is found by the position that it begins with.  There is one line for every
operation, which bears a mark if a jump leads to it, and one behind the last operation if a jump leads there.  A jump to
anywhere else leaves no mark.  Since a line also determines the operation it shows, the listing determines the operations.

* `Disassembly.JumpsTo`, `Disassembly.jumpsTo_iff`: the targets of jumps.
* `Disassembly.linesAt`: the lines of a position.
* `Disassembly.linesAt_linesFrom`: the line of every operation, and the end line.
* `Disassembly.listing_faithful`: the marks of a listing, and that it determines the operations.
-/

namespace ScratchMachine

namespace Disassembly

variable {start i k : Nat} {s text : String} {targets : List Int} {ops : List Operation}

/-! ### Targets -/

/-- A jump at some position has an offset that leads to the target. -/
def JumpsTo (ops : List Operation) (target : Int) : Prop :=
  ∃ (j : Nat) (o : Int32), (j : Int) + o.toInt = target ∧
    (ops[j]? = some (.jump o) ∨ ops[j]? = some (.jumpIfFalse o) ∨ ∃ os, ops[j]? = some (.switch os) ∧ o ∈ os)

theorem mem_targetsFrom {target : Int} : target ∈ targetsFrom start ops ↔
    ∃ j op o, ops[j]? = some op ∧ o ∈ op.offsets ∧ ((start + j : Nat) : Int) + o.toInt = target := by
  induction ops generalizing start with
  | nil => simp [targetsFrom]
  | cons op ops ih =>
    rw [targetsFrom, List.mem_append, ih, targetsAt, List.mem_map]
    constructor
    · rintro (⟨o, ho, htarget⟩ | ⟨j, op', o, hop, ho, htarget⟩)
      · exact ⟨0, op, o, rfl, ho, htarget⟩
      · exact ⟨j + 1, op', o, hop, ho, by omega⟩
    · rintro ⟨j, op', o, hop, ho, htarget⟩
      cases j with
      | zero =>
        cases hop
        exact .inl ⟨o, ho, htarget⟩
      | succ j => exact .inr ⟨j, op', o, hop, ho, by omega⟩

theorem jumpsTo_iff {target : Int} : JumpsTo ops target ↔ target ∈ targetsFrom 0 ops := by
  rw [mem_targetsFrom]
  constructor
  · rintro ⟨j, o, htarget, hop | hop | ⟨os, hop, ho⟩⟩
    · exact ⟨j, _, o, hop, List.mem_singleton_self o, by omega⟩
    · exact ⟨j, _, o, hop, List.mem_singleton_self o, by omega⟩
    · exact ⟨j, _, o, hop, ho, by omega⟩
  · rintro ⟨j, op, o, hop, ho, htarget⟩
    refine ⟨j, o, by omega, ?_⟩
    cases op with
    | jump o' =>
      cases List.mem_singleton.1 ho
      exact .inl hop
    | jumpIfFalse o' =>
      cases List.mem_singleton.1 ho
      exact .inr (.inl hop)
    | switch os => exact .inr (.inr ⟨os, hop, ho⟩)
    | _ => cases ho

instance (ops : List Operation) (target : Int) : Decidable (JumpsTo ops target) := decidable_of_iff _ jumpsTo_iff.symm

/-! ### Lines -/

/-- The lines of a text. -/
def lines (s : String) : List String := (s.toList.splitOn '\n').map String.ofList

/-- A line begins with the numeral of a position and a space. -/
def At (i : Nat) (l : String) : Prop := (Numeral.position i ++ " ").toList <+: l.toList

instance (i : Nat) (l : String) : Decidable (At i l) :=
  inferInstanceAs (Decidable ((Numeral.position i ++ " ").toList <+: l.toList))

/-- The lines of a text that begin with a position. -/
def linesAt (s : String) (i : Nat) : List String := (lines s).filter (At i ·)

theorem lines_append (h : '\n' ∉ s.toList) (rest : String) : lines (s ++ "\n" ++ rest) = s :: lines rest := by
  have hlist : (s ++ "\n" ++ rest).toList = s.toList ++ '\n' :: rest.toList := by simp
  rw [lines, hlist, List.splitOn_append_cons_self_of_not_mem h, List.map_cons, String.ofList_toList, lines]

theorem at_iff {j : Nat} {rest : List Char} (h : s.toList = (Numeral.position j).toList ++ ' ' :: rest) :
    At i s ↔ i = j := by
  have hspace (z : Int) : ' ' ∉ (Numeral.position z).toList :=
    fun hmem => absurd (Numeral.isFigure_of_mem_position hmem) (by decide)
  rw [At, h, String.toList_append]
  constructor
  · rintro ⟨more, heq⟩
    rw [List.append_assoc] at heq
    have hposition := (eq_and_eq_of_append_cons (hspace i) (hspace j) heq).1
    exact Int.ofNat.inj (Numeral.position_injective (String.toList_injective hposition))
  · rintro rfl
    exact ⟨rest, List.append_assoc _ _ _⟩

theorem not_at_of_head (h : s.toList.head?.all fun c => !Numeral.isFigure c) : ¬ At i s := by
  rintro ⟨rest, heq⟩
  obtain ⟨c, cs, hcons⟩ := List.exists_cons_of_ne_nil (Numeral.toList_position_ne_nil (z := i))
  have hfigure : Numeral.isFigure c := Numeral.isFigure_of_mem_position (hcons ▸ List.mem_cons_self)
  have hhead : s.toList.head? = some c := by rw [← heq, String.toList_append, hcons]; rfl
  rw [hhead, Option.all_some, hfigure] at h
  cases h

/-! ### The lines of a listing -/

/-- The rule without the line break. -/
def ruleLine : String := "      ┌──────────────────────────────────"

theorem rule_eq : rule = ruleLine ++ "\n" := by decide

theorem plain_ruleLine : Plain ruleLine := by decide

/-- A text behind its position, with a mark between them if the position is one of `targets`. -/
def shown (targets : List Int) (i : Nat) (text : String) : String :=
  Numeral.position i ++ (if (i : Int) ∈ targets then " ► " else "   ") ++ text

theorem at_shown {j : Nat} : At i (shown targets j text) ↔ i = j := by
  rw [shown]
  split
  · exact at_iff (by rw [String.toList_append, String.toList_append, List.append_assoc]; rfl)
  · exact at_iff (by rw [String.toList_append, String.toList_append, List.append_assoc]; rfl)

theorem break_notMem_shown (h : Plain text) : '\n' ∉ (shown targets i text).toList := by
  have hmark : '\n' ∉ (if (i : Int) ∈ targets then " ► " else "   ").toList := by split <;> decide
  simp only [shown, String.toList_append, List.mem_append, not_or]
  exact ⟨⟨(plain_position i).break_notMem, hmark⟩, h.break_notMem⟩

theorem lines_line_append (h : Plain text) (rest : String) : lines (line targets i text ++ rest) =
    (if (i : Int) ∈ targets then [ruleLine] else []) ++ shown targets i text :: lines rest := by
  have hline : line targets i text = (if (i : Int) ∈ targets then ruleLine ++ "\n" else "") ++
      (shown targets i text ++ "\n") := by
    rw [line, shown]
    split
    · simp only [rule_eq, String.append_assoc]
    · simp only [String.append_assoc, String.empty_append]
  rw [hline, String.append_assoc]
  split
  · rw [lines_append plain_ruleLine.break_notMem, lines_append (break_notMem_shown h)]
    rfl
  · rw [String.empty_append, lines_append (break_notMem_shown h)]
    rfl

theorem lines_endLine : lines (endLine targets i) =
    (if (i : Int) ∈ targets then [shown targets i "(end)"] else []) ++ [""] := by
  rw [endLine]
  split
  · rename_i hi
    have hshown : Numeral.position i ++ " ► (end)\n" = shown targets i "(end)" ++ "\n" ++ "" := by
      rw [shown, if_pos hi]
      simp only [String.append_assoc]
      rfl
    rw [hshown, lines_append (break_notMem_shown (by decide))]
    rfl
  · rfl

/-! ### The lines of a position -/

theorem linesAt_line_append {j : Nat} (h : Plain text) (rest : String) : linesAt (line targets j text ++ rest) i =
    (if i = j then [shown targets j text] else []) ++ linesAt rest i := by
  have hrule : ¬ At i ruleLine := not_at_of_head (by decide)
  rw [linesAt, lines_line_append h, linesAt]
  split <;> split <;> simp_all [at_shown]

theorem linesAt_endLine {j : Nat} : linesAt (endLine targets j) i =
    if i = j ∧ (j : Int) ∈ targets then [shown targets j "(end)"] else [] := by
  have hempty : ¬ At i "" := not_at_of_head (by decide)
  rw [linesAt, lines_endLine]
  split <;> simp_all [List.filter_cons, at_shown]

theorem linesAt_linesFrom_of_lt (h : i < start) : linesAt (linesFrom targets start ops) i = [] := by
  induction ops generalizing start with
  | nil => rw [linesFrom, linesAt_endLine, if_neg (by omega)]
  | cons op ops ih =>
    rw [linesFrom, linesAt_line_append (plain_operationText start op), if_neg (by omega), ih (by omega), List.nil_append]

/-- There is a line for every operation, and one behind the last if that position is a target. -/
theorem linesAt_linesFrom (targets : List Int) (start k : Nat) (ops : List Operation) :
    linesAt (linesFrom targets start ops) (start + k) =
      match ops[k]? with
      | some op => [shown targets (start + k) (operationText (start + k) op)]
      | none => if k = ops.length ∧ ((start + k : Nat) : Int) ∈ targets then [shown targets (start + k) "(end)"] else [] := by
  induction ops generalizing start k with
  | nil =>
    rw [linesFrom, linesAt_endLine]
    cases k with
    | zero => simp
    | succ k => simp
  | cons op ops ih =>
    rw [linesFrom, linesAt_line_append (plain_operationText start op)]
    cases k with
    | zero => rw [linesAt_linesFrom_of_lt (by omega)]; simp
    | succ k =>
      rw [if_neg (by omega), List.nil_append, show start + (k + 1) = start + 1 + k by omega, ih]
      simp

theorem linesAt_listing (ops : List Operation) (i : Nat) : linesAt (listing ops) i =
    match ops[i]? with
    | some op => [shown (targetsFrom 0 ops) i (operationText i op)]
    | none => if i = ops.length ∧ (i : Int) ∈ targetsFrom 0 ops then [shown (targetsFrom 0 ops) i "(end)"] else [] := by
  have hline := linesAt_linesFrom (targetsFrom 0 ops) 0 i ops
  rwa [Nat.zero_add] at hline

/-! ### The marks -/

theorem mem_targets_of_marked (h : Plain text) (hmark : '►' ∈ (shown targets i text).toList) : (i : Int) ∈ targets := by
  by_contra hi
  rw [shown, if_neg hi] at hmark
  exact (((plain_position i).append (by decide)).append h).mark_notMem hmark

/-- A line that bears a mark is that of a target. -/
theorem exists_of_marked {l : String} (hl : l ∈ lines (linesFrom targets start ops)) (hmark : '►' ∈ l.toList) :
    ∃ k ≤ ops.length, ((start + k : Nat) : Int) ∈ targets ∧ At (start + k) l := by
  induction ops generalizing start with
  | nil =>
    rw [linesFrom, lines_endLine, List.mem_append] at hl
    rcases hl with hl | hl
    · split at hl
      · cases List.mem_singleton.1 hl
        exact ⟨0, Nat.le_refl _, mem_targets_of_marked (by decide) hmark, at_shown.2 rfl⟩
      · cases hl
    · cases List.mem_singleton.1 hl
      cases hmark
  | cons op ops ih =>
    rw [linesFrom, lines_line_append (plain_operationText start op), List.mem_append, List.mem_cons] at hl
    rcases hl with hl | rfl | hl
    · split at hl
      · cases List.mem_singleton.1 hl
        exact absurd hmark plain_ruleLine.mark_notMem
      · cases hl
    · exact ⟨0, Nat.zero_le _, mem_targets_of_marked (plain_operationText start op) hmark, at_shown.2 rfl⟩
    · obtain ⟨k, hk, hthere⟩ := ih hl
      rw [show start + 1 + k = start + (k + 1) by omega] at hthere
      exact ⟨k + 1, Nat.succ_le_succ hk, hthere⟩

/-! ### The operations of a listing -/

/-- Both marks take as much room, so the texts behind them are the same. -/
theorem eq_of_shown_eq {targets' : List Int} {text' : String} (h : shown targets i text = shown targets' i text') :
    text = text' := by
  have hlist := congrArg String.toList h
  simp only [shown, String.toList_append, List.append_assoc] at hlist
  have hrest := List.append_cancel_left hlist
  refine String.toList_injective (List.append_inj_right hrest ?_)
  split <;> split <;> rfl

theorem listing_injective : Function.Injective listing := by
  intro a b h
  have hend {targets targets' : List Int} {i : Nat} {op : Operation} {p : Prop} [Decidable p] :
      [shown targets i (operationText i op)] ≠ if p then [shown targets' i "(end)"] else [] := by
    intro heq
    split at heq
    · exact operationText_ne_end i op (eq_of_shown_eq (List.cons.inj heq).1)
    · cases heq
  refine List.ext_getElem? fun i => ?_
  have hline : linesAt (listing a) i = linesAt (listing b) i := by rw [h]
  rw [linesAt_listing, linesAt_listing] at hline
  cases ha : a[i]? with
  | none =>
    cases hb : b[i]? with
    | none => rfl
    | some op =>
      rw [ha, hb] at hline
      exact absurd hline.symm hend
  | some op =>
    cases hb : b[i]? with
    | none =>
      rw [ha, hb] at hline
      exact absurd hline hend
    | some op' =>
      rw [ha, hb] at hline
      rw [operationText_injective i (eq_of_shown_eq (List.cons.inj hline).1)]

/-- A listing is that of no other operations.  There is one line for each operation, which is marked if a jump leads to
it, and one behind them if a jump leads there.  A jump to before the first position or beyond the end marks nothing. -/
theorem listing_faithful :
    Function.Injective listing ∧
    ∀ ops : List Operation,
      (∀ i op, ops[i]? = some op → linesAt (listing ops) i =
        [Numeral.position i ++ (if JumpsTo ops i then " ► " else "   ") ++ operationText i op]) ∧
      (linesAt (listing ops) ops.length =
        if JumpsTo ops ops.length then [Numeral.position ops.length ++ " ► (end)"] else []) ∧
      (∀ i, ops.length < i → linesAt (listing ops) i = []) ∧
      ∀ l ∈ lines (listing ops), '►' ∈ l.toList → ∃ i ≤ ops.length, JumpsTo ops i ∧ l ∈ linesAt (listing ops) i := by
  refine ⟨listing_injective, fun ops => ?_⟩
  simp only [jumpsTo_iff]
  refine ⟨fun i op hop => ?_, ?_, fun i hi => ?_, fun l hl hmark => ?_⟩
  · rw [linesAt_listing, hop]
    rfl
  · rw [linesAt_listing, List.getElem?_eq_none (Nat.le_refl _)]
    simp only [true_and, shown, String.append_assoc]
    split <;> rfl
  · rw [linesAt_listing, List.getElem?_eq_none (Nat.le_of_lt hi)]
    exact if_neg fun h => Nat.ne_of_gt hi h.1
  · obtain ⟨i, hi, htarget, hat⟩ := exists_of_marked hl hmark
    rw [Nat.zero_add] at htarget hat
    exact ⟨i, hi, htarget, List.mem_filter.2 ⟨hl, decide_eq_true hat⟩⟩

/-- An arm leads back, the other one to before the start, and a jump to the end. -/
theorem listing_faithful_arms :
    [Operation.int 7, .jumpIfFalse 2, .switch [-1, -9]][1]? = some (.jumpIfFalse 2) ∧
    linesAt (listing [.int 7, .jumpIfFalse 2, .switch [-1, -9]]) 1 = ["0001 ► JUMP_FALSE  +2 ↓ (→ 0003)"] ∧
    linesAt (listing [.int 7, .jumpIfFalse 2, .switch [-1, -9]]) 3 = ["0003 ► (end)"] := by
  have hfaithful := listing_faithful.2 [.int 7, .jumpIfFalse 2, .switch [-1, -9]]
  exact ⟨rfl, (hfaithful.1 1 (.jumpIfFalse 2) rfl).trans (by decide), hfaithful.2.1.trans (by decide)⟩

example : listing [.int 7, .jumpIfFalse 2, .switch [-1, -9]] =
    "0000   INT         7\n      ┌──────────────────────────────────\n0001 ► JUMP_FALSE  +2 ↓ (→ 0003)\n" ++
      "0002   SWITCH      [0001, -007]\n0003 ► (end)\n" := by cbv

end Disassembly

end ScratchMachine
