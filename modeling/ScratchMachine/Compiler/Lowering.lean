import ScratchMachine.Compiler

/-!
# Lowering

An expression becomes a fragment of the compiler's graph.  The blocks are made in the order of evaluation, those of
an operation's arguments before its own; of a conditional, the condition first, then the first arm, the block where
the arms meet, and the second arm.
-/

namespace ScratchMachine.Compiler

variable {σ : Type}

/-! ### Parts of the rules -/

/-- An operation on what the fragments left, if the selected version has it. -/
def emit (op : Operation) (children : List Fragment) : Compiling σ Fragment := do
  (← get).options.require op
  onGraph (BlockGraph.applyOp op children)

/-- Refuses an element of a sequence, other than the last, that leaves a value; the first element stands at
`index`. -/
def checkItems (index : Nat) : List Expr → Except CompileError Unit
  | [] | [_] => .ok ()
  | e :: e' :: rest =>
    if e.type = .none then checkItems (index + 1) (e' :: rest)
    else .error (.sequenceValue index e.type e.text)

/-- Refuses arms whose types do not fit each other, unless one of them always returns. -/
def checkArms (yes no : Expr) : Except CompileError Unit :=
  if yes.alwaysReturns || no.alwaysReturns || yes.type.accepts no.type then .ok ()
  else .error (.armsDisagree yes.type no.type)

/-- The end of a condition. -/
def conditionEnd (cond : Fragment) : Except CompileError BlockId :=
  match cond.exit with
  | some last => .ok last
  | none => .error (.neverFallsThrough "if condition")

/-- Makes control go from the end of an arm, if it has one, to the block where the arms meet. -/
def joinArm (arm : Fragment) (join : BlockId) : Linking Unit :=
  match arm.exit with
  | some last => BlockGraph.link last join
  | none => pure ()

/-- Refuses a return with a value that the program, or the subroutine being lowered, may not return. -/
def checkReturn (current : Option Subroutine) (value : Expr) : Except CompileError Unit :=
  match current with
  | none => value.type.require .uint64
  | some s => if s.returns = .none then .error (.returnUnexpected s.name value.text) else value.type.require s.returns

/-- Refuses a return without a value, unless the subroutine being lowered leaves none. -/
def checkReturnNone (current : Option Subroutine) : Except CompileError Unit :=
  match current with
  | none => .error .programWithoutValue
  | some s => if s.returns = .none then .ok () else .error (.returnMissing s.name s.returns)

/-- The operation that leaves the program, or a subroutine. -/
def returnOp (current : Option Subroutine) : Operation := if current.isSome then .retsub else .ret

/-! ### The rules -/

mutual

/-- Lowers an expression. -/
def lower : Expr → Compiling σ Fragment
  | .int n => onGraph (BlockGraph.fragment [.int n])
  | .bytes b => onGraph (BlockGraph.fragment [.byte b])
  | .op o args _ _ => do
    let children ← lowerAll args
    emit o children
  | .seq [] => onGraph (BlockGraph.fragment [])
  | .seq (e :: rest) => do
    checkItems 0 (e :: rest)
    let first ← lower e
    lowerAfter first rest
  | .ifThen cond body => do
    cond.type.require .uint64
    if body.type ≠ .none then throw (.missingElse body.type)
    let c ← lower cond
    let last ← conditionEnd c
    let b ← lower body
    let join ← onGraph (BlockGraph.addBlock [])
    onGraph (joinArm b join)
    onGraph (BlockGraph.branch last [b.entry, join])
    return ⟨c.entry, some join⟩
  | .ifElse cond yes no => do
    cond.type.require .uint64
    checkArms yes no
    let c ← lower cond
    let last ← conditionEnd c
    let y ← lower yes
    let join ← onGraph (BlockGraph.addBlock [])
    onGraph (joinArm y join)
    let n ← lower no
    onGraph (joinArm n join)
    onGraph (BlockGraph.branch last [y.entry, n.entry])
    return ⟨c.entry, if yes.alwaysReturns && no.alwaysReturns then none else some join⟩
  | .ret value => do
    let current := (← get).current
    checkReturn current value
    let v ← lower value
    emit (returnOp current) [v]
  | .retNothing => do
    let current := (← get).current
    checkReturnNone current
    emit (returnOp current) []
  | .call callee args => do
    discard <| definition callee
    callee.checkArgs args
    (← get).options.require (.callsub callee.id)
    let children ← lowerArgs args
    enqueue callee
    emit (.callsub callee.id) children

/-- Lowers expressions in order. -/
def lowerAll : List Expr → Compiling σ (List Fragment)
  | [] => return []
  | e :: rest => do
    let first ← lower e
    let others ← lowerAll rest
    return first :: others

/-- Lowers expressions in order, each to follow what came before. -/
def lowerAfter (before : Fragment) : List Expr → Compiling σ Fragment
  | [] => return before
  | e :: rest => do
    let next ← lower e
    let both ← onGraph (BlockGraph.seq before next)
    lowerAfter both rest

/-- Lowers an argument: an expression, or the number of a variable's slot. -/
def lowerArg : Arg → Compiling σ Fragment
  | .value e => lower e
  | .ref v => lowerIndex v

/-- Lowers the number of a variable's slot. -/
def lowerIndex : Variable → Compiling σ Fragment
  | ⟨_, location, _⟩ => lowerSlotNumber location

/-- Lowers the number of a slot. -/
def lowerSlotNumber : Location → Compiling σ Fragment
  | .pooled slot | .fixed slot => onGraph (BlockGraph.fragment [.int slot])
  | .computed e => lower e

/-- Lowers arguments in order. -/
def lowerArgs : List Arg → Compiling σ (List Fragment)
  | [] => return []
  | a :: rest => do
    let first ← lowerArg a
    let others ← lowerArgs rest
    return first :: others

end

theorem lowerIndex_eq (v : Variable) : lowerIndex (σ := σ) v = lower v.index := by
  obtain ⟨type, slot | slot | e, target⟩ := v <;>
    simp [lowerIndex, lowerSlotNumber, Variable.index, Location.indexExpr, lower]

end ScratchMachine.Compiler
