import Tiered.Code.Listing
import Tiered.Exec.Interpreter

/-! The stack machine that runs units. Values and the iterators of open loops have a stack each. -/
namespace Tiered

/-- Both stacks have their top in front; an iterator is the list of elements still to come. -/
structure Machine where
  ip : Nat := 0
  stack : List Value := []
  iterators : List (List Value) := []

/-- An instruction leaves the machine for the next one, or ends the call with a value. -/
inductive Transition where
  | next (m : Machine)
  | done (v : Value)

namespace Machine

def push (m : Machine) (v : Value) : Machine :=
  { m with stack := v :: m.stack }

/-- Stops at a fault of the unit, found with the instruction pointer at `m.ip`. -/
def fault {α : Type} (p : Lowered) (m : Machine) (cause : Fault) : Run Activation α :=
  .raise (.internal (.fault p.unit.name m.ip cause))

def pop (p : Lowered) (m : Machine) : Run Activation (Value × Machine) :=
  match m.stack with
  | v :: rest => return (v, { m with stack := rest })
  | [] => m.fault p .valueUnderflow

/-- The `n` topmost values, the deepest first. -/
def popArgs (p : Lowered) (m : Machine) (n : Nat) : Run Activation (List Value × Machine) :=
  if n ≤ m.stack.length then
    return ((m.stack.take n).reverse, { m with stack := m.stack.drop n })
  else m.fault p .valueUnderflow

def jump (m : Machine) (distance : Int16) : Machine :=
  { m with ip := jumpFrom m.ip distance }

def readByte (p : Lowered) (m : Machine) : Run Activation (UInt8 × Machine) :=
  match p.unit.byte? m.ip with
  | some b => return (b, { m with ip := m.ip + 1 })
  | none => m.fault p .truncated

def readSignedByte (p : Lowered) (m : Machine) : Run Activation (Int8 × Machine) := do
  let (b, m) ← m.readByte p
  return (b.toInt8, m)

def readWord (p : Lowered) (m : Machine) : Run Activation (UInt16 × Machine) :=
  match p.unit.word? m.ip with
  | some w => return (w, { m with ip := m.ip + 2 })
  | none => m.fault p .truncated

def readSignedWord (p : Lowered) (m : Machine) : Run Activation (Int16 × Machine) := do
  let (w, m) ← m.readWord p
  return (w.toInt16, m)

/-- Reads what the operation `op` takes from the code first of all. The instruction pointer is past
the operation code, and moves past the operand. -/
def fetch (p : Lowered) (m : Machine) : Opcode → Run Activation (Instr × Machine)
  | .pop => return (.pop, m)
  | .pushNone => return (.pushNone, m)
  | .pushSmall => do
    let (n, m) ← m.readSignedByte p
    return (.pushSmall n, m)
  | .pushConstant => do
    let (index, m) ← m.readWord p
    return (.pushConstant index, m)
  | .loadLocal => do
    let (slot, m) ← m.readWord p
    return (.loadLocal slot, m)
  | .storeLocal => do
    let (slot, m) ← m.readWord p
    return (.storeLocal slot, m)
  | .loadGlobal => do
    let (slot, m) ← m.readWord p
    return (.loadGlobal slot, m)
  | .storeGlobal => do
    let (slot, m) ← m.readWord p
    return (.storeGlobal slot, m)
  | .loadUniversal => do
    let (index, m) ← m.readWord p
    return (.loadUniversal index, m)
  | .jump => do
    let (distance, m) ← m.readSignedWord p
    return (.jump distance, m)
  | .call => do
    let (argc, m) ← m.readByte p
    return (.call argc, m)
  | .ret => return (.ret, m)
  | .getIter => return (.getIter, m)
  | .forIter => do
    let (distance, m) ← m.readSignedWord p
    return (.forIter distance, m)
  | .makeFunction => do
    let (index, m) ← m.readWord p
    return (.makeFunction index, m)
  | .add => return (.add, m)

/-- A fetch ends in a fault, or in some instruction of the operation. It does not touch stacks. -/
theorem fetch_cases (p : Lowered) (m : Machine) (op : Opcode) :
    m.fetch p op = m.fault p .truncated ∨
      ∃ i ip, m.fetch p op = pure (i, { m with ip := ip }) := by
  have hbyte : m.readByte p = m.fault p .truncated ∨
      ∃ b ip, m.readByte p = pure (b, { m with ip := ip }) := by
    unfold readByte
    cases p.unit.byte? m.ip with
    | none => exact .inl rfl
    | some b => exact .inr ⟨b, _, rfl⟩
  have hword : m.readWord p = m.fault p .truncated ∨
      ∃ w ip, m.readWord p = pure (w, { m with ip := ip }) := by
    unfold readWord
    cases p.unit.word? m.ip with
    | none => exact .inl rfl
    | some w => exact .inr ⟨w, _, rfl⟩
  cases op with
  | pop | pushNone | ret | getIter | add => exact .inr ⟨_, m.ip, rfl⟩
  | pushSmall | call =>
    simp only [fetch, readSignedByte]
    rcases hbyte with h | ⟨b, ip, h⟩ <;> rw [h]
    · exact .inl rfl
    · exact .inr ⟨_, ip, rfl⟩
  | _ =>
    simp only [fetch, readSignedWord]
    rcases hword with h | ⟨w, ip, h⟩ <;> rw [h]
    · exact .inl rfl
    · exact .inr ⟨_, ip, rfl⟩

/-- Executes an instruction whose operand has been read; the instruction pointer is past it. -/
def execute (call : Caller) (p : Lowered) (m : Machine) : Instr → Run Activation Transition
  | .pop => do
    let (_, m) ← m.pop p
    return .next m
  | .pushNone => return .next (m.push .none)
  | .pushSmall n => return .next (m.push (.int n.toInt64))
  | .pushConstant i =>
    match p.unit.constantAt? i with
    | some v => return .next (m.push v)
    | none => m.fault p (.constantRange i)
  | .loadLocal slot => do
    let v ← Run.ofExcept ((← get).frame.loadLocal slot (p.unit.nameOfLocal slot))
    return .next (m.push v)
  | .storeLocal slot => do
    let (v, m) ← m.pop p
    Activation.storeLocal slot v
    return .next m
  | .loadGlobal slot => do
    let a ← get
    let v ← Run.ofExcept (a.frame.loadGlobal a.world slot (p.unit.nameOfGlobal slot))
    return .next (m.push v)
  | .storeGlobal slot => do
    let (v, m) ← m.pop p
    Activation.storeGlobal slot v
    return .next m
  | .loadUniversal i =>
    match p.unit.nameAt? i with
    | some name => do
      let v ← Run.ofExcept (Tiered.loadUniversal name)
      return .next (m.push v)
    | none => m.fault p (.nameRange i)
  | .jump distance => return .next (m.jump distance)
  | .call argc => do
    let (args, m) ← m.popArgs p argc.toNat
    let (callee, m) ← m.pop p
    let v ← Activation.lift fun _ => call callee { positional := args }
    return .next (m.push v)
  | .ret => do
    let (v, _) ← m.pop p
    return .done v
  | .getIter => do
    let (collection, m) ← m.pop p
    let items ← Run.ofExcept collection.items
    return .next { m with iterators := items :: m.iterators }
  | .forIter distance =>
    match m.iterators with
    | (v :: items) :: outer => return .next { m.push v with iterators := items :: outer }
    | [] :: outer => return .next { m.jump distance with iterators := outer }
    | [] => m.fault p .iteratorUnderflow
  | .makeFunction i =>
    match (p.unit.functionAt? i).bind p.functions.get? with
    | some fn => do
      Activation.emit (.makeFunction p.unit.name fn.name)
      let f ← Activation.lift fun frame => World.allocClosure fn frame.function
      return .next (m.push (.function f))
    | none => m.fault p (.functionRange i)
  | .add => do
    let (b, m) ← m.pop p
    let (a, m) ← m.pop p
    let sum ← Run.ofExcept (a.add b)
    return .next (m.push sum)

def step (settings : ExecSettings) (call : Caller) (p : Lowered) (m : Machine) :
    Run Activation Transition :=
  match p.unit.byte? m.ip with
  | none => m.fault p .offEnd
  | some byte =>
    match Opcode.ofByte? byte with
    | none => m.fault p (.badOpcode byte)
    | some op => do
      if settings.trace then
        Activation.emit (.instruction p.unit.name m.ip (p.unit.lineAt m.ip).1 m.stack.length
          m.iterators.length)
      let (i, m) ← fetch p { m with ip := m.ip + 1 } op
      m.execute call p i

inductive Outcome where
  | returned (v : Value)
  | stopped (reason : Stop)
  | limitReached

structure Report where
  outcome : Outcome
  steps : Nat
  final : Activation

def run (settings : ExecSettings) (call : Caller) (p : Lowered) :
    (limit taken : Nat) → Machine → Activation → Report
  | 0, taken, _, a => ⟨.limitReached, taken, a⟩
  | limit + 1, taken, m, a =>
    match m.step settings call p a with
    | .ok (.next m) a => run settings call p limit (taken + 1) m a
    | .ok (.done v) a => ⟨.returned v, taken + 1, a⟩
    | .error reason a => ⟨.stopped reason, taken + 1, a⟩

/-- Takes steps until the unit returns or stops. A unit that goes round for ever has no result. -/
def finish (settings : ExecSettings) (call : Caller) (p : Lowered) (m : Machine) (a : Activation) :
    Option (EStateM.Result Stop Activation Value) :=
  match m.step settings call p a with
  | .ok (.next m) a => m |>.finish settings call p a
  | .ok (.done v) a => some (.ok v a)
  | .error reason a => some (.error reason a)
partial_fixpoint

end Machine

/-- Runs a unit from its first instruction to its return. No fuel suffices for a run without end. -/
def Lowered.execute (settings : ExecSettings) (call : Caller) (p : Lowered) :
    Run Activation Value := fun a =>
  (Machine.finish settings call p {} a).getD (.error .outOfFuel a)

end Tiered
