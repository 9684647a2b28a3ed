import ScratchMachine.Program

/-!
# Disassembly

A listing of a run of operations, one to a line, in which the targets of jumps are marked, and of a whole program.
-/

namespace ScratchMachine

namespace Disassembly

/-! ### Jump targets -/

/-- The positions that the operation at `position` may continue at by an offset. -/
def targetsAt (position : Nat) (op : Operation) : List Int := op.offsets.map fun o => position + o.toInt

/-- The targets of all jumps in a run of operations whose first stands at `start`. -/
def targetsFrom (start : Nat) : List Operation → List Int
  | [] => []
  | op :: ops => targetsAt start op ++ targetsFrom (start + 1) ops

/-! ### Lines -/

/-- An offset, the direction it points to and the position it leads to. -/
def offsetText (position : Nat) (offset : Int32) : String :=
  let arrow := if offset.toInt < 0 then "↑" else "↓"
  Numeral.signed offset.toInt ++ " " ++ arrow ++ " (→ " ++ Numeral.position (position + offset.toInt) ++ ")"

/-- The operation at `position` as a line shows it. -/
def operationText (position : Nat) : Operation → String
  | .int n => "INT         " ++ toString n
  | .byte b => "BYTE        0x" ++ Hex.text b
  | .pop => "POP"
  | .add => "ADD"
  | .sub => "SUB"
  | .mul => "MUL"
  | .div => "DIV"
  | .mod => "MOD"
  | .eq => "EQ"
  | .ne => "NE"
  | .lt => "LT"
  | .gt => "GT"
  | .le => "LE"
  | .ge => "GE"
  | .and => "AND"
  | .or => "OR"
  | .not => "NOT"
  | .load slot => "LOAD        " ++ toString slot
  | .store slot => "STORE       " ++ toString slot
  | .loads => "LOADS       ; ( i -- x )"
  | .stores => "STORES      ; ( i x -- )"
  | .jump offset => "JUMP        " ++ offsetText position offset
  | .jumpIfFalse offset => "JUMP_FALSE  " ++ offsetText position offset
  | .switch offsets =>
    let arms := offsets.map fun o => Numeral.position (position + o.toInt)
    "SWITCH      [" ++ ", ".intercalate arms ++ "]"
  | .callsub id => "CALLSUB     " ++ toString id
  | .retsub => "RETSUB"
  | .ret => "RETURN"
  | .err => "ERR"

/-- The rule above a line that a jump leads to. -/
def rule : String := "      ┌──────────────────────────────────\n"

/-- The line at `position`, which is marked if it is one of `targets`. -/
def line (targets : List Int) (position : Nat) (text : String) : String :=
  if (position : Int) ∈ targets then rule ++ Numeral.position position ++ " ► " ++ text ++ "\n"
  else Numeral.position position ++ "   " ++ text ++ "\n"

/-- The line after the last operation, which is there only if a jump leads to it. -/
def endLine (targets : List Int) (position : Nat) : String :=
  if (position : Int) ∈ targets then Numeral.position position ++ " ► (end)\n" else ""

/-- The lines of a run of operations whose first stands at `start`, and the end line. -/
def linesFrom (targets : List Int) (start : Nat) : List Operation → String
  | [] => endLine targets start
  | op :: ops => line targets start (operationText start op) ++ linesFrom targets (start + 1) ops

/-- The listing of a run of operations. -/
def listing (ops : List Operation) : String := linesFrom (targetsFrom 0 ops) 0 ops

/-! ### Programs -/

/-- The bar above and below the heading of a code object. -/
def bar : String := "════════════════════════════════════════\n"

/-- The name of a code object, with the lowest subroutine that runs it. -/
def label (p : Program) (index : Nat) (code : CodeObject) : String :=
  match p.subroutines.entries.find? (·.2.toNat = index) with
  | some (id, _) => s!"{code.name} ({id})"
  | none => code.name

/-- A code object under its heading. -/
def codeSection (p : Program) (index : Nat) (code : CodeObject) : String :=
  bar ++ " " ++ label p index code ++ "\n" ++ s!" {code.ops.size} instructions\n" ++ bar ++
    listing code.ops.toList ++ "\n"

end Disassembly

/-- The listing of every code object of a program. -/
def Program.disassembly (p : Program) : String :=
  "=== BYTECODE PROGRAM ===\n\n" ++
    String.join (p.code.mapIdx fun index code => Disassembly.codeSection p index code)

end ScratchMachine
