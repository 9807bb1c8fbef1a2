import Tiered.Code.Lowering

/-! Verification: a unit that passes never drives the machine into a fault. -/
namespace Tiered

structure Located where
  offset : Nat
  instr : Instr
deriving DecidableEq

def Located.next (l : Located) : Nat :=
  l.offset + l.instr.size

def Located.target? (l : Located) : Option Int :=
  l.instr.distance?.map fun d => (l.next : Int) + d.toInt

/-- Size of a unit and the greatest depths its two stacks reach. -/
structure Summary where
  instructions : Nat
  maxStack : Nat
  maxLoops : Nat
deriving DecidableEq

/-- A flaw and the offset it is found at. -/
abbrev Checked := Except (Nat × Flaw)

namespace CodeUnit

/-- The instruction of the operation `op` at `offset`, where the code does not cut it off. -/
def instrAt (u : CodeUnit) (offset : Nat) : Opcode → Instr
  | .pop => .pop
  | .pushNone => .pushNone
  | .pushSmall => .pushSmall ((u.signedByte? (offset + 1)).getD 0)
  | .pushConstant => .pushConstant ((u.word? (offset + 1)).getD 0)
  | .loadLocal => .loadLocal ((u.word? (offset + 1)).getD 0)
  | .storeLocal => .storeLocal ((u.word? (offset + 1)).getD 0)
  | .loadGlobal => .loadGlobal ((u.word? (offset + 1)).getD 0)
  | .storeGlobal => .storeGlobal ((u.word? (offset + 1)).getD 0)
  | .loadUniversal => .loadUniversal ((u.word? (offset + 1)).getD 0)
  | .jump => .jump ((u.signedWord? (offset + 1)).getD 0)
  | .call => .call ((u.byte? (offset + 1)).getD 0)
  | .ret => .ret
  | .getIter => .getIter
  | .forIter => .forIter ((u.signedWord? (offset + 1)).getD 0)
  | .makeFunction => .makeFunction ((u.word? (offset + 1)).getD 0)
  | .add => .add

def decodeAt (u : CodeUnit) (offset : Nat) (byte : UInt8) : Checked Located :=
  match Opcode.ofByte? byte with
  | none => .error (offset, .unknownOpcode byte)
  | some op =>
    if u.size < offset + op.size then .error (offset, .truncated op)
    else .ok ⟨offset, u.instrAt offset op⟩

/-- Decodes from `offset` to the end of the code. Every instruction takes at least one byte, so
`fuel` bytes suffice. -/
def decodeFrom (u : CodeUnit) : (fuel offset : Nat) → Array Located → Checked (Array Located)
  | 0, _, acc => .ok acc
  | fuel + 1, offset, acc =>
    match u.byte? offset with
    | none => .ok acc
    | some byte => do
      let l ← u.decodeAt offset byte
      u.decodeFrom fuel l.next (acc.push l)

/-- The instructions of the code, one right after the other from offset zero. -/
def decode (u : CodeUnit) : Checked (Array Located) :=
  u.decodeFrom u.size 0 #[]

end CodeUnit

/-- For every offset of the code, the index of the instruction that starts there. -/
def boundaries (size : Nat) (code : Array Located) : Array (Option Nat) :=
  code.zipIdx.foldl (fun starts p => starts.setIfInBounds p.1.offset (some p.2))
    (Array.replicate size none)

def startAt (starts : Array (Option Nat)) (offset : Int) : Option Nat :=
  if offset < 0 then none else starts[offset.toNat]?.join

namespace Lowered

/-- The operand names an entry that exists; a nested function is also in the table. -/
def operandOk (p : Lowered) (i : Instr) : Except Flaw Unit :=
  let within (index : UInt16) (size : Nat) (pool : Pool) : Except Flaw Unit :=
    if index.toNat < size then .ok () else .error (.operandRange i.opcode index.toNat size pool)
  match i with
  | .pushConstant index => within index p.unit.constants.size .constants
  | .loadUniversal index => within index p.unit.names.size .names
  | .loadLocal slot | .storeLocal slot => within slot p.unit.localCount.toNat .locals
  | .makeFunction index =>
    match p.unit.functionAt? index with
    | none => within index p.unit.functions.size .functions
    | some id => if p.functions.contains id then .ok () else .error (.missingFunction id)
  | _ => .ok ()

/-- The operand is good, and a jump leads to the start of an instruction. -/
def checkInstr (p : Lowered) (starts : Array (Option Nat)) (l : Located) : Checked Unit := do
  match p.operandOk l.instr with
  | .error flaw => .error (l.offset, flaw)
  | .ok () =>
    match l.target? with
    | none => .ok ()
    | some target =>
      if (startAt starts target).isSome then .ok ()
      else .error (l.offset, .badTarget l.instr.opcode target)

end Lowered

/-- Control flow seen so far: the depths instructions are entered at, and those still to follow. -/
structure Flow where
  entry : Array (Option Depth)
  queue : List Nat
  maxStack : Nat := 0
  maxLoops : Nat := 0

namespace Flow

/-- Control reaches instruction `j` with `depth`: news the first time, and the same depth on every
other way to it. -/
def reach (f : Flow) (code : Array Located) (j : Nat) (depth : Depth) : Checked Flow :=
  match f.entry[j]?.join with
  | none => .ok { f with entry := f.entry.setIfInBounds j (some depth), queue := f.queue ++ [j] }
  | some known =>
    if known = depth then .ok f
    else .error ((code[j]?.map Located.offset).getD 0, .joinMismatch known depth)

def followAll (code : Array Located) (starts : Array (Option Nat)) (offset : Nat) :
    List (Int × Depth) → Flow → Checked Flow
  | [], f => .ok f
  | (target, depth) :: rest, f =>
    match startAt starts target with
    | none => .error (offset, .offEnd)
    | some j => do
      let f ← f.reach code j depth
      followAll code starts offset rest f

end Flow

namespace Located

def depthAfter (l : Located) (depth : Depth) : Checked Depth :=
  let effect := l.instr.effect
  if depth.values < effect.pops then
    .error (l.offset, .underflow l.instr.opcode effect.pops depth.values)
  else
    let values := depth.values - effect.pops + effect.pushes
    match l.instr with
    | .getIter => .ok ⟨values, depth.loops + 1⟩
    | .forIter _ =>
      if depth.loops = 0 then .error (l.offset, .noIterator) else .ok ⟨values, depth.loops⟩
    | _ => .ok ⟨values, depth.loops⟩

/-- The ways on from an instruction: to the next one, then to the target of its jump. A loop that
ends drops its iterator and pushes nothing. -/
def successors (l : Located) (before after : Depth) : List (Int × Depth) :=
  let onward := if l.instr.opcode.endsFlow then [] else [((l.next : Int), after)]
  match l.instr, l.target? with
  | .forIter _, some target => onward ++ [(target, ⟨before.values, before.loops - 1⟩)]
  | _, some target => onward ++ [(target, after)]
  | _, none => onward

end Located

/-- Takes the oldest instruction of the queue and follows it. -/
def Flow.advance (code : Array Located) (starts : Array (Option Nat)) (f : Flow) (i : Nat) :
    Checked Flow :=
  match code[i]?, f.entry[i]?.join with
  | some l, some depth => do
    let after ← l.depthAfter depth
    let f :=
      { f with maxStack := max f.maxStack after.values, maxLoops := max f.maxLoops after.loops }
    Flow.followAll code starts l.offset (l.successors depth after) f
  | _, _ => .ok f

/-- Follows the queue until it is empty. An instruction enters the queue once, so `fuel` of them
suffice. -/
def Flow.explore (code : Array Located) (starts : Array (Option Nat)) :
    (fuel : Nat) → Flow → Checked Flow
  | 0, f => .ok f
  | fuel + 1, f =>
    match f.queue with
    | [] => .ok f
    | i :: queue => do
      let f ← Flow.advance code starts { f with queue := queue } i
      Flow.explore code starts fuel f

def exploreDepths (code : Array Located) (starts : Array (Option Nat)) : Checked Summary := do
  let entry := (Array.replicate code.size none).setIfInBounds 0 (some ⟨0, 0⟩)
  let f ← Flow.explore code starts code.size { entry := entry, queue := [0] }
  return ⟨code.size, f.maxStack, f.maxLoops⟩

namespace Lowered

/-- All checks in order: the code decodes, every operand and jump is good, and the depths on all
paths agree. -/
def check (p : Lowered) : Checked Summary := do
  if p.unit.size = 0 then throw (0, .empty)
  let code ← p.unit.decode
  let starts := boundaries p.unit.size code
  code.forM (p.checkInstr starts)
  exploreDepths code starts

def verify (name : String) (p : Lowered) : Except LocatedFlaw Summary :=
  match p.check with
  | .ok summary => .ok summary
  | .error (offset, flaw) => .error ⟨name, offset, flaw⟩

end Lowered

end Tiered
