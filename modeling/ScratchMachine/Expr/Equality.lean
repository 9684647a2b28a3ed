import ScratchMachine.Expr

/-!
# Equality of expressions

Two expressions are equal if they have the same shape and the same parts.  The callees of two calls are compared by
their numbers alone.
-/

namespace ScratchMachine

mutual

/-- Whether two expressions are equal. -/
def Expr.beq : Expr → Expr → Bool
  | .int m, .int n => m == n
  | .bytes b, .bytes c => b == c
  | .op o args type returns, .op o' args' type' returns' =>
    o == o' && Expr.beqAll args args' && type == type' && returns == returns'
  | .seq items, .seq items' => Expr.beqAll items items'
  | .ifThen cond body, .ifThen cond' body' => cond.beq cond' && body.beq body'
  | .ifElse cond yes no, .ifElse cond' yes' no' => cond.beq cond' && yes.beq yes' && no.beq no'
  | .ret value, .ret value' => value.beq value'
  | .retNothing, .retNothing => true
  | .call callee args, .call callee' args' => callee.sameId callee' && Arg.beqAll args args'
  | _, _ => false

/-- Whether two lists of expressions are equal. -/
def Expr.beqAll : List Expr → List Expr → Bool
  | [], [] => true
  | e :: rest, e' :: rest' => e.beq e' && Expr.beqAll rest rest'
  | _, _ => false

/-- Whether two locations are equal. -/
def Location.beq : Location → Location → Bool
  | .pooled i, .pooled j | .fixed i, .fixed j => i == j
  | .computed e, .computed e' => e.beq e'
  | _, _ => false

/-- Whether two variables are equal. -/
def Variable.beq : Variable → Variable → Bool
  | ⟨type, location, aliasOf⟩, ⟨type', location', aliasOf'⟩ =>
    type == type' && location.beq location' && aliasOf == aliasOf'

/-- Whether two arguments are equal. -/
def Arg.beq : Arg → Arg → Bool
  | .value e, .value e' => e.beq e'
  | .ref v, .ref v' => v.beq v'
  | _, _ => false

/-- Whether two lists of arguments are equal. -/
def Arg.beqAll : List Arg → List Arg → Bool
  | [], [] => true
  | a :: rest, a' :: rest' => a.beq a' && Arg.beqAll rest rest'
  | _, _ => false

end

instance : BEq Expr := ⟨Expr.beq⟩

end ScratchMachine
