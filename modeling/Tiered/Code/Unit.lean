import Tiered.Code.Instr
import Tiered.Program
import Tiered.Value

/-! Code units: the bytes of one lowered function, and the pools its operands index. -/
namespace Tiered

structure CodeUnit where
  name : String
  function : FunctionId
  localCount : UInt16 := 0
  code : Array UInt8 := #[]
  constants : Array Value := #[]
  names : Array String := #[]
  functions : Array FunctionId := #[]
  localNames : Array (Option String) := #[]
  globalNames : Array (Option String) := #[]

namespace CodeUnit

def size (u : CodeUnit) : Nat :=
  u.code.size

def byte? (u : CodeUnit) (offset : Nat) : Option UInt8 :=
  u.code[offset]?

def opcode? (u : CodeUnit) (offset : Nat) : Option Opcode :=
  (u.byte? offset).bind Opcode.ofByte?

def word? (u : CodeUnit) (offset : Nat) : Option UInt16 := do
  let hi ← u.byte? offset
  let lo ← u.byte? (offset + 1)
  return wordOfBytes hi lo

def signedByte? (u : CodeUnit) (offset : Nat) : Option Int8 :=
  (u.byte? offset).map UInt8.toInt8

def signedWord? (u : CodeUnit) (offset : Nat) : Option Int16 :=
  (u.word? offset).map UInt16.toInt16

def constantAt? (u : CodeUnit) (index : UInt16) : Option Value :=
  u.constants[index.toNat]?

def nameAt? (u : CodeUnit) (index : UInt16) : Option String :=
  u.names[index.toNat]?

def functionAt? (u : CodeUnit) (index : UInt16) : Option FunctionId :=
  u.functions[index.toNat]?

/-- The name a slot is recorded under; a slot without one shows a question mark. -/
def nameOfSlot (names : Array (Option String)) (slot : UInt16) : String :=
  (names[slot.toNat]?.join).getD "?"

def nameOfLocal (u : CodeUnit) (slot : UInt16) : String :=
  nameOfSlot u.localNames slot

def nameOfGlobal (u : CodeUnit) (slot : UInt16) : String :=
  nameOfSlot u.globalNames slot

end CodeUnit

/-- The position that a sixty-four bit address stands for: the upper half lies below zero. -/
def positionOf (address : UInt64) : Int :=
  address.toInt64.toInt

/-- The address of a position: those below zero wrap to the top of a sixty-four bit address. -/
def addressOf (position : Int) : Nat :=
  if position < 0 then (position + UInt64.size).toNat else position.toNat

def jumpFrom (base : Nat) (distance : Int16) : Nat :=
  addressOf (base + distance.toInt)

end Tiered
