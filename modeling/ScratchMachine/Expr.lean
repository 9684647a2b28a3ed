import ScratchMachine.Subroutine

/-!
# Expressions

The trees that a host builds and a compiler lowers.  A tree evaluates its parts on one stack and leaves at most one
value there.  Variables occur in the tree as the operations that access them, and as arguments passed by reference.

* `Expr.type` is the type of what a tree leaves, and `Expr.alwaysReturns` says that control never gets past it.
-/

namespace ScratchMachine

mutual

/-- An expression. -/
inductive Expr where
  /-- An integer. -/
  | int (n : UInt64)
  /-- A string of bytes. -/
  | bytes (b : List UInt8)
  /-- The parts in order, then an operation on what they left.  The node states its type and whether control ever
  gets past it. -/
  | op (op : Operation) (args : List Expr) (type : ValueType) (returns : Bool)
  /-- Expressions in order, of which only the last may leave a value. -/
  | seq (items : List Expr)
  /-- `body`, if the condition is not zero. -/
  | ifThen (cond body : Expr)
  /-- The first arm if the condition is not zero, the second if it is. -/
  | ifElse (cond yes no : Expr)
  /-- Leaves the subroutine, or ends the program, with a value. -/
  | ret (value : Expr)
  /-- Leaves the subroutine without a value. -/
  | retNothing
  /-- Runs a subroutine on arguments. -/
  | call (callee : Subroutine) (args : List Arg)

/-- Where the storage of a variable is. -/
inductive Location where
  /-- In a slot that the pool chose. -/
  | pooled (slot : UInt64)
  /-- In a slot that was asked for by number. -/
  | fixed (slot : UInt64)
  /-- In the slot whose number an expression computes at run time. -/
  | computed (index : Expr)

/-- A variable in scratch space. -/
structure Variable where
  /-- The type of the values that the variable may hold. -/
  type : ValueType
  location : Location
  /-- For an alias, which owns no storage, the type of the variable whose storage it shares. -/
  aliasOf : Option ValueType

/-- An argument of a call, or the handle of a parameter inside a body. -/
inductive Arg where
  /-- Passed by value; inside a body, a read of the parameter. -/
  | value (e : Expr)
  /-- Passed by reference; inside a body, an alias of the caller's variable. -/
  | ref (v : Variable)

end

namespace Expr

instance : Inhabited Expr := ⟨.seq []⟩

/-! ### What a tree leaves -/

mutual

/-- Whether every path through the tree leaves the subroutine or the program. -/
def alwaysReturns : Expr → Bool
  | int _ | bytes _ | ifThen .. | call .. => false
  | ret _ | retNothing => true
  | op _ _ _ returns => returns
  | seq items => lastReturns items
  | ifElse _ yes no => yes.alwaysReturns && no.alwaysReturns

/-- Whether the last of some expressions always returns. -/
def lastReturns : List Expr → Bool
  | [] => false
  | [e] => e.alwaysReturns
  | _ :: e :: rest => lastReturns (e :: rest)

end

mutual

/-- The type of what the tree leaves on the stack.  A conditional has the type of its first arm, unless that arm
always returns or may leave a value of any type. -/
def type : Expr → ValueType
  | int _ => .uint64
  | bytes _ => .bytes
  | op _ _ type _ => type
  | seq items => lastType items
  | ifThen .. | ret _ | retNothing => .none
  | ifElse _ yes no => if yes.alwaysReturns || yes.type = .any then no.type else yes.type
  | call callee _ => callee.returns

/-- The type of the last of some expressions. -/
def lastType : List Expr → ValueType
  | [] => .none
  | [e] => e.type
  | _ :: e :: rest => lastType (e :: rest)

end

/-! ### Building trees -/

/-- An operation on what the arguments left; control gets past it unless the operation is terminal. -/
def ofOp (o : Operation) (args : List Expr) (type : ValueType) : Expr := .op o args type o.isTerminal

/-- An operation on what one expression left. -/
def andThen (e : Expr) (o : Operation) (type : ValueType) : Expr := ofOp o [e] type

/-- An operation on two integers that leaves an integer. -/
def binary (o : Operation) (a b : Expr) : Expr := ofOp o [a, b] .uint64

def add : Expr → Expr → Expr := binary .add

def sub : Expr → Expr → Expr := binary .sub

def mul : Expr → Expr → Expr := binary .mul

def div : Expr → Expr → Expr := binary .div

def mod : Expr → Expr → Expr := binary .mod

def eq : Expr → Expr → Expr := binary .eq

def ne : Expr → Expr → Expr := binary .ne

def lt : Expr → Expr → Expr := binary .lt

def gt : Expr → Expr → Expr := binary .gt

def le : Expr → Expr → Expr := binary .le

def ge : Expr → Expr → Expr := binary .ge

def and : Expr → Expr → Expr := binary .and

def or : Expr → Expr → Expr := binary .or

def not (a : Expr) : Expr := ofOp .not [a] .uint64

/-- Discards the value of an expression. -/
def pop (a : Expr) : Expr := ofOp .pop [a] .none

/-- Fails when it is evaluated. -/
def err : Expr := ofOp .err [] .none

end Expr

/-! ### Slots -/

/-- A location as variables refer to it: directly, or by reference. -/
structure Slot where
  location : Location
  byReference : Bool := false

namespace Location

/-- The number of the slot, if it is known before the program runs. -/
def index? : Location → Option UInt64
  | pooled i | fixed i => some i
  | computed _ => none

/-- Whether the number of the slot was asked for. -/
def isFixed : Location → Bool
  | fixed _ => true
  | _ => false

/-- An expression that leaves the number of the slot. -/
def indexExpr : Location → Expr
  | pooled i | fixed i => .int i
  | computed e => e

end Location

/-- Another slot in the same place, which only refers to it. -/
def Slot.asAlias (s : Slot) : Slot := { s with byReference := true }

namespace Variable

/-- Whether the variable shares the storage of another. -/
def isAlias (v : Variable) : Bool := v.aliasOf.isSome

/-- The slot of the variable. -/
def slot (v : Variable) : Slot := ⟨v.location, v.isAlias⟩

end Variable

/-- The type of the value passed, or of the variable passed by reference. -/
def Arg.type : Arg → ValueType
  | value e => e.type
  | ref v => v.type

end ScratchMachine
