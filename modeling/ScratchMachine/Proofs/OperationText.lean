import ScratchMachine.Disassembly
import ScratchMachine.Program.Codec
import ScratchMachine.Proofs.Numerals

/-!
# Lines of a listing read back

The text of an operation fits on one line, bears no mark, and determines the operation.  Its first word says which
operation it is.  The operand is a numeral, or is made of numerals between characters that no numeral has.  A
target is written as the position that it leads to, and so determines the offset at a given position.

* `Disassembly.plain_operationText`: the characters that an operation is not written with.
* `Disassembly.firstWord_operationText`: the first word is the name of the operation.
* `Disassembly.operationText_injective`: the operation from its text.
-/

namespace ScratchMachine

/-! ### Operations that differ in the operand only -/

namespace Operation

/-- The two are equal but for the value of their operand. -/
inductive SameForm : Operation → Operation → Prop
  | int (m n : UInt64) : SameForm (int m) (int n)
  | byte (a b : List UInt8) : SameForm (byte a) (byte b)
  | load (m n : UInt64) : SameForm (load m) (load n)
  | store (m n : UInt64) : SameForm (store m) (store n)
  | jump (a b : Int32) : SameForm (jump a) (jump b)
  | jumpIfFalse (a b : Int32) : SameForm (jumpIfFalse a) (jumpIfFalse b)
  | switch (a b : List Int32) : SameForm (switch a) (switch b)
  | callsub (a b : SubroutineId) : SameForm (callsub a) (callsub b)
  | refl (op : Operation) : SameForm op op

theorem sameForm_of_tag_eq {a b : Operation} (h : a.tag = b.tag) : SameForm a b := by
  cases a <;> cases b <;> first | cases h; done | constructor

end Operation

/-! ### Parts of a text -/

section Parts

variable {α : Type} [DecidableEq α] {sep : α} {gap : List α}

/-- What stands before the first separator, and what stands behind it. -/
theorem eq_and_eq_of_append_cons {a b s t : List α} (ha : sep ∉ a) (hb : sep ∉ b) (h : a ++ sep :: s = b ++ sep :: t) :
    a = b ∧ s = t := by
  have hsplit := congrArg (List.splitOn sep) h
  rw [List.splitOn_append_cons_self_of_not_mem ha, List.splitOn_append_cons_self_of_not_mem hb] at hsplit
  obtain ⟨rfl, -⟩ := List.cons.inj hsplit
  exact ⟨rfl, (List.cons.inj (List.append_cancel_left h)).2⟩

/-- The parts of a list that a separator and a gap behind it join. -/
theorem splitOn_intercalate_cons (hgap : sep ∉ gap) {part : List α} {parts : List (List α)}
    (h : ∀ p ∈ part :: parts, sep ∉ p) :
    ((sep :: gap).intercalate (part :: parts)).splitOn sep = part :: parts.map (gap ++ ·) := by
  induction parts generalizing part with
  | nil => rw [List.intercalate_singleton, List.splitOn_eq_singleton (h part List.mem_cons_self), List.map_nil]
  | cons next parts ih =>
    have hnext : gap ++ (sep :: gap).intercalate (next :: parts) = (sep :: gap).intercalate ((gap ++ next) :: parts) := by
      cases parts <;> simp
    rw [List.intercalate_cons_cons, List.append_assoc, List.cons_append,
      List.splitOn_append_cons_self_of_not_mem (h part List.mem_cons_self), hnext, ih]
    · rfl
    · simp_all

/-- Parts that are not empty and have no separator are determined by the list that joins them. -/
theorem intercalate_inj (hgap : sep ∉ gap) {a b : List (List α)} (ha : ∀ p ∈ a, sep ∉ p ∧ p ≠ [])
    (hb : ∀ p ∈ b, sep ∉ p ∧ p ≠ []) (h : (sep :: gap).intercalate a = (sep :: gap).intercalate b) : a = b := by
  have hsplit {part : List α} {parts : List (List α)} (hparts : ∀ p ∈ part :: parts, sep ∉ p ∧ p ≠ []) :=
    splitOn_intercalate_cons hgap fun p hp => (hparts p hp).1
  -- nothing at all splits into one part, which is empty
  have hnil {part : List α} {parts : List (List α)} (hparts : ∀ p ∈ part :: parts, sep ∉ p ∧ p ≠ []) :
      (sep :: gap).intercalate (part :: parts) ≠ [] := by
    intro heq
    have hone := hsplit hparts
    rw [heq, List.splitOn_nil] at hone
    exact (hparts part List.mem_cons_self).2 (List.cons.inj hone).1.symm
  cases a with
  | nil =>
    cases b with
    | nil => rfl
    | cons q b => exact absurd h.symm (hnil hb)
  | cons p a =>
    cases b with
    | nil => exact absurd h (hnil ha)
    | cons q b =>
      have hboth := congrArg (List.splitOn sep) h
      rw [hsplit ha, hsplit hb] at hboth
      obtain ⟨rfl, hrest⟩ := List.cons.inj hboth
      rw [(List.map_inj_right fun _ _ => List.append_cancel_left).1 hrest]

end Parts

namespace Disassembly

variable {position : Nat} {s t : String}

/-! ### Characters of a text -/

/-- Whether the character is neither a line break nor the mark of a jump target. -/
def isPlain (c : Char) : Bool := c ≠ '\n' && c ≠ '►'

/-- The text has no line break and no mark. -/
def Plain (s : String) : Prop := s.toList.all isPlain

instance (s : String) : Decidable (Plain s) := inferInstanceAs (Decidable (s.toList.all isPlain = true))

theorem plain_iff : Plain s ↔ ∀ c ∈ s.toList, c ≠ '\n' ∧ c ≠ '►' := by
  simp [Plain, isPlain]

theorem Plain.break_notMem (h : Plain s) : '\n' ∉ s.toList := fun hmem => (plain_iff.1 h _ hmem).1 rfl

theorem Plain.mark_notMem (h : Plain s) : '►' ∉ s.toList := fun hmem => (plain_iff.1 h _ hmem).2 rfl

theorem Plain.append (hs : Plain s) (ht : Plain t) : Plain (s ++ t) := by
  rw [Plain, String.toList_append, List.all_append, Bool.and_eq_true]
  exact ⟨hs, ht⟩

theorem plain_of_isFigure (h : ∀ c ∈ s.toList, Numeral.isFigure c) : Plain s := by
  refine plain_iff.2 fun c hc => ?_
  constructor <;> rintro rfl <;> exact absurd (h _ hc) (by decide)

theorem plain_position (z : Int) : Plain (Numeral.position z) :=
  plain_of_isFigure fun _ => Numeral.isFigure_of_mem_position

theorem plain_toString (n : Nat) : Plain (toString n) :=
  plain_of_isFigure fun c hc => by simp [Numeral.isFigure, Numeral.isDigit_of_mem_toString hc]

theorem plain_hex (b : List UInt8) : Plain (Hex.text b) := by
  have hall : ('0' :: Hex.alphabet).all isPlain := by decide
  have hdigit (n : Nat) : isPlain (Hex.digit n) := by
    refine List.all_eq_true.1 hall _ ?_
    rw [Hex.digit, List.getD_eq_getElem?_getD]
    cases hn : Hex.alphabet[n]? with
    | none => exact List.mem_cons_self
    | some c => exact List.mem_cons_of_mem _ (List.mem_of_getElem? hn)
  rw [Plain, Hex.text, String.toList_ofList]
  induction b with
  | nil => rfl
  | cons b bytes ih => simp only [Hex.digits, List.all_cons, hdigit, ih, Bool.and_self]

theorem plain_intercalate {parts : List String} (hs : Plain s) (h : ∀ p ∈ parts, Plain p) :
    Plain (s.intercalate parts) := by
  induction parts with
  | nil =>
    rw [String.intercalate_nil]
    decide
  | cons part parts ih =>
    have hpart := h part List.mem_cons_self
    cases parts with
    | nil => rwa [String.intercalate_singleton]
    | cons next parts =>
      rw [String.intercalate_cons_cons]
      exact (hpart.append hs).append (ih fun p hp => h p (List.mem_cons_of_mem _ hp))

theorem plain_offsetText (position : Nat) (offset : Int32) : Plain (offsetText position offset) := by
  have harrow : Plain (if offset.toInt < 0 then "↑" else "↓") := by split <;> decide
  have hsigned : Plain (Numeral.signed offset.toInt) := plain_of_isFigure fun _ => Numeral.isFigure_of_mem_signed
  exact ((((hsigned.append (by decide)).append harrow).append (by decide)).append (plain_position _)).append (by decide)

/-- An operation is on one line and bears no mark itself. -/
theorem plain_operationText (position : Nat) (op : Operation) : Plain (operationText position op) := by
  cases op with
  | int n | load n | store n => exact .append (by decide) (plain_toString n.toNat)
  | byte b => exact .append (by decide) (plain_hex b)
  | jump o | jumpIfFalse o => exact .append (by decide) (plain_offsetText position o)
  | switch offsets =>
    refine .append (.append (by decide) (plain_intercalate (by decide) ?_)) (by decide)
    intro p hp
    obtain ⟨o, -, rfl⟩ := List.mem_map.1 hp
    exact plain_position _
  | callsub id => exact .append (by decide) (.append (by decide) (plain_toString id.number.toNat))
  | _ =>
    simp only [operationText]
    decide

/-! ### The first word -/

/-- The words that operations begin with, in the order of their numbers. -/
def words : List String :=
  ["INT", "BYTE", "POP", "ADD", "SUB", "MUL", "DIV", "MOD", "EQ", "NE", "LT", "GT", "LE", "GE", "AND", "OR", "NOT",
    "LOAD", "STORE", "LOADS", "STORES", "JUMP", "JUMP_FALSE", "SWITCH", "CALLSUB", "RETSUB", "RETURN", "ERR"]

/-- What a text has before its first space. -/
def firstWord (s : String) : String := String.ofList (s.toList.takeWhile (· ≠ ' '))

theorem firstWord_operationText (position : Nat) (op : Operation) :
    words[op.tag]? = some (firstWord (operationText position op)) := by
  cases op <;> simp only [operationText, firstWord, String.toList_append] <;> rfl

theorem tag_eq_of_operationText_eq {a b : Operation} (h : operationText position a = operationText position b) :
    a.tag = b.tag := by
  have htag : a.tag < words.length := (List.getElem?_eq_some_iff.1 (firstWord_operationText position a)).1
  refine (List.getElem?_inj htag (by decide)).1 ?_
  rw [firstWord_operationText position, h, firstWord_operationText]

/-- No operation is written like the end of a listing. -/
theorem operationText_ne_end (position : Nat) (op : Operation) : operationText position op ≠ "(end)" := by
  intro h
  have hmem := List.mem_of_getElem? (firstWord_operationText position op)
  rw [h] at hmem
  exact absurd hmem (by decide)

/-! ### The operand -/

theorem eq_of_toString_eq {m n : UInt64} (h : toString m = toString n) : m = n :=
  UInt64.toNat_inj.1 (Numeral.toString_injective h)

theorem eq_of_position_eq {a b : Int32} (h : Numeral.position (position + a.toInt) = Numeral.position (position + b.toInt)) :
    a = b :=
  Int32.toInt_inj.1 (Int.add_left_cancel (Numeral.position_injective h))

/-- The offset stands before the first space. -/
theorem eq_of_offsetText_eq {a b : Int32} (h : offsetText position a = offsetText position b) : a = b := by
  have hspace (o : Int32) : ' ' ∉ (Numeral.signed o.toInt).toList :=
    fun hmem => absurd (Numeral.isFigure_of_mem_signed hmem) (by decide)
  have hlist := congrArg String.toList h
  simp only [offsetText, String.append_assoc, String.toList_append] at hlist
  exact Int32.toInt_inj.1 (Numeral.signed_injective (String.toList_injective
    (eq_and_eq_of_append_cons (hspace a) (hspace b) hlist).1))

/-- The positions that the arms lead to have no comma. -/
theorem eq_of_arms_eq {a b : List Int32}
    (h : ", ".intercalate (a.map fun o => Numeral.position (position + o.toInt)) =
      ", ".intercalate (b.map fun o => Numeral.position (position + o.toInt))) : a = b := by
  have hpart (offsets : List Int32) :
      ∀ p ∈ (offsets.map fun o => Numeral.position (position + o.toInt)).map String.toList, ',' ∉ p ∧ p ≠ [] := by
    intro p hp
    rw [List.map_map] at hp
    obtain ⟨o, -, rfl⟩ := List.mem_map.1 hp
    exact ⟨fun hmem => absurd (Numeral.isFigure_of_mem_position hmem) (by decide), Numeral.toList_position_ne_nil⟩
  have hlist := congrArg String.toList h
  rw [String.toList_intercalate, String.toList_intercalate] at hlist
  have hparts := intercalate_inj (by decide) (hpart a) (hpart b) hlist
  rw [List.map_map, List.map_map] at hparts
  exact (List.map_inj_right fun a b h => eq_of_position_eq (String.toList_injective h)).1 hparts

theorem operationText_injective (position : Nat) : Function.Injective (operationText position) := by
  intro a b h
  cases Operation.sameForm_of_tag_eq (tag_eq_of_operationText_eq h) with
  | int | load | store => rw [eq_of_toString_eq ((String.append_right_inj _).1 h)]
  | byte => rw [Hex.text_injective ((String.append_right_inj _).1 h)]
  | jump | jumpIfFalse => rw [eq_of_offsetText_eq ((String.append_right_inj _).1 h)]
  | switch => rw [eq_of_arms_eq ((String.append_right_inj _).1 ((String.append_left_inj _).1 h))]
  | callsub a b =>
    have hnumber : a.number.toNat = b.number.toNat :=
      Numeral.toString_injective ((String.append_right_inj _).1 ((String.append_right_inj _).1 h))
    have hid : a = b := congrArg SubroutineId.mk (UInt32.toNat_inj.1 hnumber)
    rw [hid]
  | refl => rfl

end Disassembly

end ScratchMachine
