/-!
# Value types

The types an expression can leave on the stack, and when a value of one type may be used where another is asked for.

* `ValueType.accepts_self`: every type fits itself.
* `ValueType.accepts_comm`: fitting does not depend on which of two types is the required one.
-/

namespace ScratchMachine

/-- What an expression leaves on the stack. -/
inductive ValueType where
  /-- An unsigned integer of 64 bits. -/
  | uint64
  /-- A string of bytes. -/
  | bytes
  /-- Either kind of value; which one is known at run time only. -/
  | any
  /-- Nothing at all. -/
  | none
  deriving DecidableEq, Repr, Inhabited

namespace ValueType

/-- The name of a type in messages. -/
protected def text : ValueType → String
  | uint64 => "uint64"
  | bytes => "bytes"
  | any => "any"
  | none => "none"

instance : ToString ValueType := ⟨ValueType.text⟩

/-- Whether a value of type `actual` may be used where `expected` is required: the types are equal, or both stand
for a value and one of them is `any`. -/
def accepts (expected actual : ValueType) : Bool :=
  expected = actual || (expected ≠ none && actual ≠ none && (expected = any || actual = any))

@[simp] theorem accepts_self (t : ValueType) : t.accepts t = true := by simp [accepts]

theorem accepts_comm (s t : ValueType) : s.accepts t = t.accepts s := by cases s <;> cases t <;> rfl

end ValueType

end ScratchMachine
