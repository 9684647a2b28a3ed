import ScratchMachine.Expr

/-!
# Expressions as text

Every node is written in parentheses: its name, then its parts.
-/

namespace ScratchMachine

mutual

/-- An expression as messages show it. -/
protected def Expr.text : Expr → String
  | .int n => s!"(int {n})"
  | .bytes b => s!"({Operation.byte b})"
  | .op o args _ _ => s!"({o}" ++ Expr.textAll args ++ ")"
  | .seq items => "(seq" ++ Expr.textAll items ++ ")"
  | .ifThen cond body => "(if " ++ cond.text ++ " " ++ body.text ++ ")"
  | .ifElse cond yes no => "(if " ++ cond.text ++ " " ++ yes.text ++ " " ++ no.text ++ ")"
  | .ret value => "(return " ++ value.text ++ ")"
  | .retNothing => "(return)"
  | .call callee args => "(call " ++ callee.name ++ Arg.textAll args ++ ")"

/-- Expressions, each behind a space. -/
def Expr.textAll : List Expr → String
  | [] => ""
  | e :: rest => " " ++ e.text ++ Expr.textAll rest

/-- A location by the number of its slot, or by the expression that computes it. -/
protected def Location.text : Location → String
  | .pooled i | .fixed i => s!"slot#{i}"
  | .computed e => "slot#" ++ e.text

/-- The slot of a variable. -/
protected def Variable.slotText : Variable → String
  | ⟨_, location, none⟩ => location.text
  | ⟨_, location, some _⟩ => location.text ++ " (by reference)"

/-- An argument: the expression, or the slot of the variable passed by reference. -/
protected def Arg.text : Arg → String
  | .value e => e.text
  | .ref v => "(ref " ++ v.slotText ++ ")"

/-- Arguments, each behind a space. -/
def Arg.textAll : List Arg → String
  | [] => ""
  | a :: rest => " " ++ a.text ++ Arg.textAll rest

end

instance : ToString Expr := ⟨Expr.text⟩

instance : ToString Arg := ⟨Arg.text⟩

/-- A slot as messages show it. -/
protected def Slot.text (s : Slot) : String := s.location.text ++ if s.byReference then " (by reference)" else ""

instance : ToString Slot := ⟨Slot.text⟩

theorem Variable.slotText_eq (v : Variable) : v.slotText = v.slot.text := by
  obtain ⟨type, location, _ | target⟩ := v <;> simp [Variable.slotText, Slot.text, slot, isAlias]

end ScratchMachine
