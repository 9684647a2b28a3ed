import ScratchMachine.BlockGraph.Block
import ScratchMachine.ValueType

/-!
# Compile errors

Every reason to refuse a request while a program is built, its kind, and its wording.  A host that builds
subroutine bodies may also fail with an error in its own words.
-/

namespace ScratchMachine

/-- The families of compile errors. -/
inductive CompileError.Kind where
  /-- An invalid request for a slot or a variable, or invalid options. -/
  | configuration
  /-- A value's type does not fit where it is used. -/
  | typing
  /-- The scratch space has no free slot left. -/
  | allocation
  /-- Parts that cannot be put together as asked. -/
  | composition
  /-- An operation that the selected version of the machine lacks. -/
  | version
  deriving DecidableEq, Repr

/-- Why a request was refused. -/
inductive CompileError where
  /-- A configuration error in the host's words. -/
  | configuration (message : String) (hint : Option String)
  /-- A type error in the host's words. -/
  | typing (message : String)
  /-- A composition error in the host's words. -/
  | composition (message : String)
  /-- The machine has no such version. -/
  | unsupportedVersion (version lowest highest : Nat)
  /-- The scratch space is empty. -/
  | noSlots
  /-- A slot was asked for by a number that the scratch space does not have. -/
  | slotOutOfRange (id : Int) (capacity : UInt64)
  /-- A slot was asked for by number after the pool had handed it out. -/
  | slotFromPool (id : UInt64)
  /-- The number of a slot would be computed by an expression of another type than integer. -/
  | slotIndexType (actual : ValueType)
  /-- Every slot has been handed out. -/
  | noFreeSlot (capacity : UInt64)
  /-- A slot was asked for together with an alias. -/
  | slotForAlias
  /-- An alias of an alias was asked for. -/
  | aliasOfAlias
  /-- The top of the stack can go into a slot of known number only. -/
  | storeTop (slot : String)
  /-- A value of one type where another is required. -/
  | typeMismatch (expected actual : ValueType)
  /-- An element of a sequence, not the last, leaves a value. -/
  | sequenceValue (index : Nat) (type : ValueType) (item : String)
  /-- The arms of a conditional leave values of types that do not fit each other. -/
  | armsDisagree (yes no : ValueType)
  /-- A conditional without an else arm leaves a value. -/
  | missingElse (type : ValueType)
  /-- The program returns without a value. -/
  | programWithoutValue
  /-- A subroutine that leaves a value returns without one. -/
  | returnMissing (name : String) (declared : ValueType)
  /-- A subroutine that leaves nothing returns a value. -/
  | returnUnexpected (name value : String)
  /-- The body of a subroutine leaves something else than its definition says. -/
  | bodyType (name : String) (actual declared : ValueType)
  /-- A call with the wrong number of arguments. -/
  | arity (name : String) (expected actual : Nat)
  /-- An argument that leaves no value. -/
  | argumentWithoutValue (value : String) (index : Nat) (name : String)
  /-- An argument of another type than the parameter's. -/
  | argumentType (param name : String) (expected actual : ValueType)
  /-- A variable where a value is to be passed. -/
  | argumentIsVariable (param name slot : String)
  /-- A variable of another type than the parameter's. -/
  | argumentVariableType (param name : String) (expected : ValueType) (slot : String) (actual : ValueType)
  /-- A value where a variable is to be passed. -/
  | argumentIsValue (param name value : String)
  /-- A call, or a declaration, of a subroutine that another compiler defined. -/
  | notDefinedHere (name : String)
  /-- The declaration of a subroutine was asked for while it is being made. -/
  | declarationInProgress (name : String)
  /-- Something was to follow a fragment that never falls through. -/
  | neverFallsThrough (context : String)
  /-- A block was to be linked a second time. -/
  | alreadyLinked (block : BlockId) (exit : Exit)
  /-- A branch over fewer than two targets. -/
  | tooFewTargets (count : Nat)
  /-- A block number that the graph does not have. -/
  | unknownBlock (block : BlockId)
  /-- The offset of a jump is too large for the machine. -/
  | offsetTooLarge
  /-- The selected version lacks something. -/
  | notAvailable (feature : String) (required actual : Nat)
  deriving DecidableEq, Repr

namespace CompileError

/-- The family of an error. -/
def kind : CompileError → Kind
  | configuration .. | unsupportedVersion .. | noSlots | slotOutOfRange .. | slotFromPool _ | slotIndexType _
  | slotForAlias | aliasOfAlias | storeTop _ => .configuration
  | typing _ | typeMismatch .. | sequenceValue .. | armsDisagree .. | missingElse _ | programWithoutValue
  | returnMissing .. | returnUnexpected .. | bodyType .. | arity .. | argumentWithoutValue .. | argumentType ..
  | argumentIsVariable .. | argumentVariableType .. | argumentIsValue .. => .typing
  | noFreeSlot _ => .allocation
  | composition _ | notDefinedHere _ | declarationInProgress _ | neverFallsThrough _ | alreadyLinked ..
  | tooFewTargets _ | unknownBlock _ | offsetTooLarge => .composition
  | notAvailable .. => .version

/-- What is wrong, without the family and without advice. -/
def message : CompileError → String
  | configuration message _ | typing message | composition message => message
  | unsupportedVersion version _ _ => s!"unsupported version {version}"
  | noSlots => "scratch space must have at least one slot"
  | slotOutOfRange id capacity => s!"requested slot id {id} must be in the range [0, {capacity})"
  | slotFromPool id => s!"slot {id} was already assigned from the pool"
  | slotIndexType actual => s!"slot index expression must be uint64, got {actual}"
  | noFreeSlot capacity => s!"all {capacity} scratch slots are in use"
  | slotForAlias => "cannot request a slot id for a variable that aliases another"
  | aliasOfAlias => "cannot alias a variable that is itself an alias"
  | storeTop slot => s!"cannot store the stack top into {slot}: only fixed or pool slots support it"
  | typeMismatch expected actual => s!"expected {expected}, got {actual}"
  | sequenceValue index type item => s!"sequence element {index} leaves a {type} on the stack: {item}"
  | armsDisagree yes no => s!"if branches disagree: then is {yes}, else is {no}"
  | missingElse type => s!"if without else cannot leave a value, then branch is {type}"
  | programWithoutValue => "the program must return a value"
  | returnMissing name declared => s!"subroutine '{name}' must return a {declared}"
  | returnUnexpected name value => s!"subroutine '{name}' returns no value, got {value}"
  | bodyType name actual declared => s!"body of subroutine '{name}' leaves {actual}, declared {declared}"
  | arity name expected actual => s!"subroutine '{name}' takes {expected} argument(s), got {actual}"
  | argumentWithoutValue value index name => s!"argument {value} at index {index} of '{name}' evaluates to none"
  | argumentType param name expected actual => s!"argument '{param}' of '{name}' expects {expected}, got {actual}"
  | argumentIsVariable param name slot =>
    s!"argument '{param}' of '{name}' is passed by value, got variable {slot}"
  | argumentVariableType param name expected slot actual =>
    s!"argument '{param}' of '{name}' expects a {expected} variable, got {slot} holding {actual}"
  | argumentIsValue param name value =>
    s!"argument '{param}' of '{name}' is passed by reference, got expression {value}"
  | notDefinedHere name => s!"subroutine '{name}' was not defined by this compiler"
  | declarationInProgress name =>
    s!"subroutine '{name}' was asked for its declaration while it is being declared"
  | neverFallsThrough context => s!"{context}: previous fragment never falls through"
  | alreadyLinked block exit => s!"{block} is already linked ({exit})"
  | tooFewTargets count => s!"a branch needs at least two targets, got {count}"
  | unknownBlock block => s!"{block} is not in the graph"
  | offsetTooLarge => "jump offset does not fit in 32 bits"
  | notAvailable feature _ _ => s!"{feature} is not available"

/-- Advice on how to avoid the error. -/
def hint : CompileError → Option String
  | configuration _ hint => hint
  | unsupportedVersion _ lowest highest => some s!"supported versions are {lowest} to {highest}"
  | slotFromPool _ => some "request fixed slots before declaring pool variables"
  | slotIndexType _ => some "dynamic slot ids are computed from integer expressions"
  | slotForAlias => some "aliases always share the slot of the variable they refer to"
  | aliasOfAlias => some "alias the original variable instead"
  | sequenceValue .. => some "only the last element may produce a value; pop() the rest"
  | missingElse _ => some "add an else branch or pop() the value"
  | programWithoutValue => some "return an integer exit code"
  | bodyType .. => some "end the body with an explicit return"
  | argumentIsVariable .. => some "pass the variable's load() instead"
  | argumentIsValue .. => some "only a scratch variable can be passed by reference"
  | notDefinedHere _ => some "define every subroutine through the compiler that compiles it"
  | declarationInProgress _ => some "call the subroutine from its body instead of declaring it there"
  | neverFallsThrough _ => some "code after a return, retsub or err is unreachable and cannot be linked"
  | _ => none

/-- How the text of an error begins. -/
def Kind.heading : Kind → String
  | .configuration => "configuration error"
  | .typing => "type error"
  | .allocation => "allocation error"
  | .composition => "compile error"
  | .version => "version error"

/-- What follows the message: the versions of a version error, otherwise the advice, if there is any. -/
def addendum : CompileError → String
  | notAvailable _ required actual => s!" (requires version {required}, compiling for version {actual})"
  | e => match e.hint with
    | some h => "\n  hint: " ++ h
    | none => ""

/-- The heading of the family, the message and what follows it. -/
protected def text (e : CompileError) : String := s!"{e.kind.heading}: {e.message}{e.addendum}"

instance : ToString CompileError := ⟨CompileError.text⟩

end CompileError

namespace ValueType

/-- Refuses a value that may not be used where `expected` is required. -/
def require (actual expected : ValueType) : Except CompileError Unit :=
  if expected.accepts actual then .ok () else .error (.typeMismatch expected actual)

end ValueType

end ScratchMachine
