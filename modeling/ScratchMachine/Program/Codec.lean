import ScratchMachine.Program
import ScratchMachine.Program.Varint

/-!
# Programs as bytes

Numbers are varints, signed ones folded onto the unsigned; texts, strings of bytes and lists follow their length.
An operation is its number and its operand.  Reading stops after the program and leaves what follows.
-/

namespace ScratchMachine

/-! ### The parts -/

namespace Varint

/-- A signed number as an unsigned one: 0, -1, 1, -2, … become 0, 1, 2, 3, …. -/
def fold (n : Int32) : Nat :=
  match n.toInt with
  | .ofNat k => 2 * k
  | .negSucc k => 2 * k + 1

/-- The signed number that `fold` made unsigned. -/
def unfold (n : Nat) : Int32 :=
  if n % 2 = 0 then Int32.ofInt (Int.ofNat (n / 2)) else Int32.ofInt (Int.negSucc (n / 2))

end Varint

namespace Reader

/-- An integer of 64 bits. -/
def word : Reader UInt64 := UInt64.ofNat <$> Varint.read 64

/-- The length of something. -/
def length : Reader Nat := Varint.read 64

/-- The offset of a jump. -/
def offset : Reader Int32 := Varint.unfold <$> Varint.read 32

/-- The number of a subroutine. -/
def subroutineId : Reader SubroutineId := (fun n => ⟨UInt32.ofNat n⟩) <$> Varint.read 32

/-- As many bytes as asked for. -/
def take (count : Nat) : Reader (List UInt8) := fun bytes =>
  if count ≤ bytes.length then .ok (bytes.take count, bytes.drop count) else .error .endOfBytes

/-- A string of bytes behind its length. -/
def bytes : Reader (List UInt8) := do take (← length)

/-- A text behind its length in bytes. -/
def text : Reader String := do
  match String.fromUTF8? ⟨(← bytes).toArray⟩ with
  | some s => return s
  | none => throw .invalidText

/-- One thing after another, so many times. -/
def many {α : Type} (read : Reader α) : Nat → Reader (List α)
  | 0 => return []
  | n + 1 => do
    let a ← read
    let rest ← many read n
    return a :: rest

/-- A list behind its length. -/
def list {α : Type} (read : Reader α) : Reader (List α) := do many read (← length)

end Reader

namespace Encoding

/-- An integer of 64 bits. -/
def word (n : UInt64) : List UInt8 := Varint.encode n.toNat

/-- The offset of a jump. -/
def offset (n : Int32) : List UInt8 := Varint.encode (Varint.fold n)

/-- The number of a subroutine. -/
def subroutineId (id : SubroutineId) : List UInt8 := Varint.encode id.number.toNat

/-- A string of bytes behind its length. -/
def bytes (b : List UInt8) : List UInt8 := Varint.encode b.length ++ b

/-- A text behind its length in bytes. -/
def text (s : String) : List UInt8 := bytes s.toUTF8.data.toList

/-- A list behind its length. -/
def list {α : Type} (encode : α → List UInt8) (l : List α) : List UInt8 := Varint.encode l.length ++ l.flatMap encode

end Encoding

/-! ### Operations -/

namespace Operation

/-- The number of the operation in a program's bytes. -/
def tag : Operation → Nat
  | int _ => 0
  | byte _ => 1
  | pop => 2
  | add => 3
  | sub => 4
  | mul => 5
  | div => 6
  | mod => 7
  | eq => 8
  | ne => 9
  | lt => 10
  | gt => 11
  | le => 12
  | ge => 13
  | and => 14
  | or => 15
  | not => 16
  | load _ => 17
  | store _ => 18
  | loads => 19
  | stores => 20
  | jump _ => 21
  | jumpIfFalse _ => 22
  | switch _ => 23
  | callsub _ => 24
  | retsub => 25
  | ret => 26
  | err => 27

/-- The bytes of the operand. -/
def operandBytes : Operation → List UInt8
  | int n | load n | store n => Encoding.word n
  | byte b => Encoding.bytes b
  | jump o | jumpIfFalse o => Encoding.offset o
  | switch os => Encoding.list Encoding.offset os
  | callsub id => Encoding.subroutineId id
  | _ => []

/-- The number, then the operand. -/
def encode (op : Operation) : List UInt8 := Varint.encode op.tag ++ op.operandBytes

/-- Reads the operand of the operation with a number. -/
def readOperand : Nat → Reader Operation
  | 0 => int <$> Reader.word
  | 1 => byte <$> Reader.bytes
  | 2 => return pop
  | 3 => return add
  | 4 => return sub
  | 5 => return mul
  | 6 => return div
  | 7 => return mod
  | 8 => return eq
  | 9 => return ne
  | 10 => return lt
  | 11 => return gt
  | 12 => return le
  | 13 => return ge
  | 14 => return and
  | 15 => return or
  | 16 => return not
  | 17 => load <$> Reader.word
  | 18 => store <$> Reader.word
  | 19 => return loads
  | 20 => return stores
  | 21 => jump <$> Reader.offset
  | 22 => jumpIfFalse <$> Reader.offset
  | 23 => switch <$> Reader.list Reader.offset
  | 24 => callsub <$> Reader.subroutineId
  | 25 => return retsub
  | 26 => return ret
  | 27 => return err
  | tag => throw (.unknownOperation tag)

/-- Reads an operation. -/
def read : Reader Operation := do readOperand (← Varint.read 32)

end Operation

/-! ### Programs -/

/-- The name, then the operations. -/
def CodeObject.encode (c : CodeObject) : List UInt8 :=
  Encoding.text c.name ++ Encoding.list Operation.encode c.ops.toList

/-- Reads a code object. -/
def CodeObject.read : Reader CodeObject := do
  let name ← Reader.text
  let ops ← Reader.list Operation.read
  return ⟨name, ops.toArray⟩

/-- An entry of the table of subroutines. -/
def SubroutineTable.encodeEntry (e : SubroutineId × UInt64) : List UInt8 :=
  Encoding.subroutineId e.1 ++ Encoding.word e.2

/-- Reads an entry of the table of subroutines. -/
def SubroutineTable.readEntry : Reader (SubroutineId × UInt64) := do
  let id ← Reader.subroutineId
  let index ← Reader.word
  return (id, index)

namespace Program

/-- The code objects, then the table of subroutines. -/
def encode (p : Program) : List UInt8 :=
  Encoding.list CodeObject.encode p.code ++ Encoding.list SubroutineTable.encodeEntry p.subroutines.entries

/-- Reads a program.  Of two entries for one subroutine the later wins. -/
def read : Reader Program := do
  let code ← Reader.list CodeObject.read
  let entries ← Reader.list SubroutineTable.readEntry
  return ⟨code, SubroutineTable.ofList entries⟩

/-- The program at the start of `bytes`. -/
def decode (bytes : List UInt8) : Except DecodeError Program := Prod.fst <$> read.run bytes

end Program

end ScratchMachine
