/-! Operation codes: their bytes, mnemonics, sizes and effects on the value stack. -/
namespace Tiered

inductive Opcode where
  | pop
  | pushNone | pushSmall | pushConstant
  | loadLocal | storeLocal | loadGlobal | storeGlobal | loadUniversal
  | jump | call | ret
  | getIter | forIter
  | makeFunction
  | add
deriving DecidableEq

/-- Values an instruction takes from the stack, and values it leaves there. -/
structure StackEffect where
  pops : Nat
  pushes : Nat
deriving DecidableEq

namespace Opcode

def all : List Opcode :=
  [pop, pushNone, pushSmall, pushConstant, loadLocal, storeLocal, loadGlobal, storeGlobal,
    loadUniversal, jump, call, ret, getIter, forIter, makeFunction, add]

def byte : Opcode → UInt8
  | pop => 0x01
  | pushNone => 0x10
  | pushSmall => 0x14
  | pushConstant => 0x19
  | loadLocal => 0x30
  | storeLocal => 0x31
  | loadGlobal => 0x38
  | storeGlobal => 0x39
  | loadUniversal => 0x3a
  | jump => 0x40
  | call => 0x48
  | ret => 0x4f
  | getIter => 0x50
  | forIter => 0x51
  | makeFunction => 0x58
  | add => 0x60

def ofByte? (b : UInt8) : Option Opcode :=
  all.find? (·.byte == b)

def mnemonic : Opcode → String
  | pop => "pop"
  | pushNone => "push_none"
  | pushSmall => "push_int_small"
  | pushConstant => "push_constant"
  | loadLocal => "load_local"
  | storeLocal => "store_local"
  | loadGlobal => "load_global"
  | storeGlobal => "store_global"
  | loadUniversal => "load_universal"
  | jump => "jump"
  | call => "call"
  | ret => "return"
  | getIter => "get_iter"
  | forIter => "for_iter"
  | makeFunction => "make_function"
  | add => "add"

def ofMnemonic? (s : String) : Option Opcode :=
  all.find? (·.mnemonic == s)

def operandSize : Opcode → Nat
  | pop | pushNone | getIter | add | ret => 0
  | pushSmall | call => 1
  | pushConstant | loadLocal | storeLocal | loadGlobal | storeGlobal | loadUniversal
  | makeFunction | jump | forIter => 2

def size (op : Opcode) : Nat :=
  1 + op.operandSize

def isJump : Opcode → Bool
  | jump | forIter => true
  | _ => false

/-- Control never passes on to the following instruction. -/
def endsFlow : Opcode → Bool
  | ret | jump => true
  | _ => false

/-- The effect of an instruction with this operand. A taken jump of `forIter` pushes nothing. -/
def effect (operand : Nat) : Opcode → StackEffect
  | pop | storeLocal | storeGlobal | getIter | ret => ⟨1, 0⟩
  | pushNone | pushSmall | pushConstant | loadLocal | loadGlobal | loadUniversal
  | makeFunction | forIter => ⟨0, 1⟩
  | jump => ⟨0, 0⟩
  | call => ⟨operand + 1, 1⟩
  | add => ⟨2, 1⟩

@[simp] theorem ofByte?_byte (op : Opcode) : ofByte? op.byte = some op := by
  cases op <;> decide

theorem byte_of_ofByte? {b : UInt8} {op : Opcode} (h : ofByte? b = some op) : op.byte = b := by
  simpa using List.find?_some h

theorem size_pos (op : Opcode) : 0 < op.size := by
  unfold size; omega

end Opcode

end Tiered
