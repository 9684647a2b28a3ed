import ScratchMachine.CompileError

/-!
# Options of a compilation

The version of the machine to compile for, and how many scratch slots it has.
-/

namespace ScratchMachine

/-- The options of one compilation. -/
structure Options where
  /-- The version of the machine, which decides the operations that a program may contain. -/
  version : Nat := 5
  /-- The number of scratch slots; the slots are numbered from zero. -/
  slotCount : UInt64 := 256
  deriving DecidableEq, Repr, Inhabited

namespace Options

/-- The lowest version there is. -/
def lowestVersion : Nat := 2

/-- The highest version there is. -/
def highestVersion : Nat := 5

/-- Refuses a version that does not exist, and then a machine without slots. -/
def validate (o : Options) : Except CompileError Unit := do
  unless lowestVersion ≤ o.version ∧ o.version ≤ highestVersion do
    throw (.unsupportedVersion o.version lowestVersion highestVersion)
  if o.slotCount = 0 then throw .noSlots

/-- Refuses an operation that the selected version lacks. -/
def require (o : Options) (op : Operation) : Except CompileError Unit :=
  if op.introducedIn ≤ o.version then .ok () else .error (.notAvailable op.mnemonic op.introducedIn o.version)

end Options

end ScratchMachine
