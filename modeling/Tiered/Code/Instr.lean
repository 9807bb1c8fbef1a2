import Tiered.Code.Opcode

/-! Instructions with their operands, as bytes and back. Immediates are big-endian. -/
namespace Tiered

/-- One instruction. Operands have the width of their immediates; distances of jumps count from the
end of the instruction. -/
inductive Instr where
  | pop
  | pushNone
  | pushSmall (n : Int8)
  | pushConstant (index : UInt16)
  | loadLocal (slot : UInt16)
  | storeLocal (slot : UInt16)
  | loadGlobal (slot : UInt16)
  | storeGlobal (slot : UInt16)
  | loadUniversal (index : UInt16)
  | jump (distance : Int16)
  | call (argc : UInt8)
  | ret
  | getIter
  | forIter (distance : Int16)
  | makeFunction (index : UInt16)
  | add
deriving DecidableEq

/-- The two bytes of a word, high byte first. -/
def wordBytes (w : UInt16) : List UInt8 :=
  [(w >>> 8).toUInt8, w.toUInt8]

def wordOfBytes (hi lo : UInt8) : UInt16 :=
  (hi.toUInt16 <<< 8) ||| lo.toUInt16

namespace Instr

def opcode : Instr → Opcode
  | pop => .pop
  | pushNone => .pushNone
  | pushSmall _ => .pushSmall
  | pushConstant _ => .pushConstant
  | loadLocal _ => .loadLocal
  | storeLocal _ => .storeLocal
  | loadGlobal _ => .loadGlobal
  | storeGlobal _ => .storeGlobal
  | loadUniversal _ => .loadUniversal
  | jump _ => .jump
  | call _ => .call
  | ret => .ret
  | getIter => .getIter
  | forIter _ => .forIter
  | makeFunction _ => .makeFunction
  | add => .add

def immediate : Instr → List UInt8
  | pop | pushNone | ret | getIter | add => []
  | pushSmall n => [n.toUInt8]
  | call n => [n]
  | pushConstant w | loadLocal w | storeLocal w | loadGlobal w | storeGlobal w | loadUniversal w
  | makeFunction w => wordBytes w
  | jump d | forIter d => wordBytes d.toUInt16

def encode (i : Instr) : List UInt8 :=
  i.opcode.byte :: i.immediate

def size (i : Instr) : Nat :=
  i.opcode.size

def distance? : Instr → Option Int16
  | jump d | forIter d => some d
  | _ => none

/-- The effect on the value stack when control passes on to the following instruction. -/
def effect : Instr → StackEffect
  | call n => Opcode.call.effect n.toNat
  | i => i.opcode.effect 0

theorem length_encode (i : Instr) : i.encode.length = i.size := by
  cases i <;> rfl

end Instr

end Tiered
