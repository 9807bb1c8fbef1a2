import Tiered.Code.Flaw
import Tiered.Code.Unit

/-! Building units: instructions, pools, slot names and jumps that are patched later. A step that
fails leaves the unit as it was. -/
namespace Tiered

abbrev Build := EStateM Refusal CodeUnit

/-- The operand bytes of a jump that waits for its target. -/
structure Label where
  offset : Nat
deriving DecidableEq

/-- The index of `a` in a pool, which takes it in unless it is there. A pool has no more entries
than a word has values. -/
def intern {α : Type} [BEq α] (pool : Array α) (a : α) : Option (UInt16 × Array α) :=
  match pool.findIdx? (· == a) with
  | some i => some (UInt16.ofNat i, pool)
  | none => if pool.size < UInt16.size then some (UInt16.ofNat pool.size, pool.push a) else none

def CodeUnit.withoutPools (u : CodeUnit) : CodeUnit :=
  { u with constants := #[], names := #[], functions := #[] }

/-- A pool of units, and why nothing is taken in when it is full. Writing it changes nothing outside
the pools. -/
structure PoolField (α : Type) where
  read : CodeUnit → Array α
  write : CodeUnit → Array α → CodeUnit
  full : Refusal
  read_write (u : CodeUnit) (entries : Array α) : read (write u entries) = entries := by
    intros; rfl
  frame (u : CodeUnit) (entries : Array α) :
    (write u entries).withoutPools = u.withoutPools := by intros; rfl

namespace PoolField

def constants : PoolField Value where
  read := CodeUnit.constants
  write u entries := { u with constants := entries }
  full := .tooManyConstants

def names : PoolField String where
  read := CodeUnit.names
  write u entries := { u with names := entries }
  full := .tooManyNames

def functions : PoolField FunctionId where
  read := CodeUnit.functions
  write u entries := { u with functions := entries }
  full := .tooManyFunctions

variable {α : Type} (pool : PoolField α) (u : CodeUnit) (entries : Array α)

theorem code_write : (pool.write u entries).code = u.code :=
  (CodeUnit.mk.inj (pool.frame u entries)).2.2.2.1

end PoolField

/-- Slots that are added behind the others are empty. -/
theorem getElem?_pad {α : Type} (slots : Array (Option α)) (n k : Nat) :
    (slots ++ Array.replicate (n - slots.size) none)[k]?.join = slots[k]?.join := by
  rw [Array.getElem?_append]
  split
  · rfl
  · rename_i hk
    rw [Array.getElem?_eq_none (by omega : slots.size ≤ k), Array.getElem?_replicate]
    split <;> rfl

/-- Slot names with `name` at `slot`, unless that slot has a name already. -/
def tagSlot (names : Array (Option String)) (slot : UInt16) (name : String) :
    Array (Option String) :=
  let i := slot.toNat
  let names := names ++ Array.replicate (i + 1 - names.size) none
  if names[i]?.join.isNone then names.setIfInBounds i (some name) else names

def jumpOperand? (distance : Int) : Option Int16 :=
  if Int16.minValue.toInt ≤ distance ∧ distance ≤ Int16.maxValue.toInt then
    some (Int16.ofInt distance)
  else none

namespace Build

def appendBytes (bytes : List UInt8) : Build Unit :=
  modify fun u => { u with code := u.code ++ bytes }

def appendOp (op : Opcode) : Build Unit :=
  appendBytes [op.byte]

def appendByte (op : Opcode) (operand : UInt8) : Build Unit :=
  appendBytes [op.byte, operand]

def appendWord (op : Opcode) (operand : UInt16) : Build Unit :=
  appendBytes (op.byte :: wordBytes operand)

def appendInstr (i : Instr) : Build Unit :=
  appendBytes i.encode

def reserveLocals (n : UInt16) : Build Unit :=
  modify fun u => { u with localCount := n }

def internIn {α : Type} [BEq α] (pool : PoolField α) (a : α) : Build UInt16 := fun u =>
  match intern (pool.read u) a with
  | some (i, entries) => .ok i (pool.write u entries)
  | none => .error pool.full u

section InternIn

variable {α : Type} [BEq α] {pool : PoolField α} {a : α} {u : CodeUnit}

theorem internIn_of_some {i : UInt16} {entries : Array α}
    (h : intern (pool.read u) a = some (i, entries)) :
    internIn pool a u = .ok i (pool.write u entries) := by
  simp only [internIn, h]

theorem internIn_of_none (h : intern (pool.read u) a = none) :
    internIn pool a u = .error pool.full u := by
  simp only [internIn, h]

end InternIn

def internConstant (v : Value) : Build UInt16 :=
  internIn .constants v

def internName (name : String) : Build UInt16 :=
  internIn .names name

def internFunction (id : FunctionId) : Build UInt16 :=
  internIn .functions id

def tagLocal (slot : UInt16) (name : String) : Build Unit :=
  modify fun u => { u with localNames := tagSlot u.localNames slot name }

def tagGlobal (slot : UInt16) (name : String) : Build Unit :=
  modify fun u => { u with globalNames := tagSlot u.globalNames slot name }

/-- A jump whose operand is still to be patched. -/
def openJump (op : Opcode) : Build Label := fun u =>
  .ok ⟨u.code.size + 1⟩ { u with code := u.code ++ [op.byte, 0xff, 0xff] }

/-- Lets the jump at `label` lead to the end of the code so far. -/
def closeJump (label : Label) : Build Unit := fun u =>
  match jumpOperand? ((u.code.size : Int) - (label.offset + 2)) with
  | none => .error .jumpTooFar u
  | some d =>
    let w := d.toUInt16
    let code := u.code.setIfInBounds label.offset (w >>> 8).toUInt8
    .ok () { u with code := code.setIfInBounds (label.offset + 1) w.toUInt8 }

def jumpBack (target : Int) : Build Unit := fun u =>
  match jumpOperand? (target - (u.code.size + 3)) with
  | none => .error .jumpTooFar u
  | some d => .ok () { u with code := u.code ++ (Instr.jump d).encode }

end Build

end Tiered
