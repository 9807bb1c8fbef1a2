import Tiered.Exec.Machine
import Tiered.Proofs.Encoding

/-! Single steps of the machine: what it does at an instruction, and how a run goes on. -/
namespace Tiered

theorem jumpFrom_eq {base target : Nat} {d : Int16} (h : (base : Int) + d.toInt = target) :
    jumpFrom base d = target := by
  rw [jumpFrom, addressOf, h, if_neg (by omega)]
  exact Int.toNat_natCast target

theorem Machine.popArgs_append (p : Lowered) (ip : Nat) (vs stack : List Value)
    (iterators : List (List Value)) :
    popArgs p ⟨ip, vs ++ stack, iterators⟩ vs.length =
      pure (vs.reverse, ⟨ip, stack, iterators⟩) := by
  unfold popArgs
  rw [if_pos (by simp)]
  simp

/-- What the machine finds when it executes the instruction at its pointer: tracing reports that
first. -/
def Machine.announced (settings : ExecSettings) (p : Lowered) (m : Machine) (a : Activation) :
    Activation :=
  if settings.trace then
    ⟨a.frame, a.world.emitEvent (.instruction p.unit.name m.ip (p.unit.lineAt m.ip).1
      m.stack.length m.iterators.length)⟩
  else a

@[simp] theorem Machine.frame_announced (settings : ExecSettings) (p : Lowered) (m : Machine)
    (a : Activation) : (m.announced settings p a).frame = a.frame := by
  unfold announced
  split <;> rfl

section Fetch

variable {p : Lowered} {m : Machine} {i : Instr}

/-- The machine reads the operand that was written, and moves past it. -/
theorem Machine.fetch_of_carries (h : p.unit.Carries m.ip i.immediate) :
    m.fetch p i.opcode = pure (i, { m with ip := m.ip + i.opcode.operandSize }) := by
  cases i with
  | pop | pushNone | ret | getIter | add => rfl
  | pushSmall n =>
    have hb : p.unit.byte? m.ip = some n.toUInt8 := h.1
    simp only [Instr.opcode, fetch, readSignedByte, readByte, hb]
    rfl
  | call n =>
    simp only [Instr.opcode, fetch, readByte, h.1]
    rfl
  | jump d | forIter d =>
    have hw : p.unit.word? m.ip = some d.toUInt16 := CodeUnit.carries_wordBytes.mp h
    simp only [Instr.opcode, fetch, readSignedWord, readWord, hw]
    rfl
  | _ w =>
    have hw : p.unit.word? m.ip = some w := CodeUnit.carries_wordBytes.mp h
    simp only [Instr.opcode, fetch, readWord, hw]
    rfl

theorem Machine.step_of_instr (hi : p.unit.instr? m.ip = some i) (settings : ExecSettings)
    (call : Caller) (a : Activation) :
    m.step settings call p a =
      execute call p { m with ip := m.ip + i.size } i (m.announced settings p a) := by
  obtain ⟨hbyte, himmediate⟩ := CodeUnit.instr?_eq_some_iff.mp hi
  have hfetch : fetch p { m with ip := m.ip + 1 } i.opcode =
      pure (i, { m with ip := m.ip + 1 + i.opcode.operandSize }) :=
    fetch_of_carries himmediate
  rw [Instr.size, Opcode.size, ← Nat.add_assoc]
  unfold step announced
  simp only [hbyte, Opcode.ofByte?_byte, hfetch]
  split <;> rfl

end Fetch

def Machine.resume (settings : ExecSettings) (call : Caller) (p : Lowered) :
    EStateM.Result Stop Activation Transition → Option (EStateM.Result Stop Activation Value)
  | .ok (.next m) a => m.finish settings call p a
  | .ok (.done v) a => some (.ok v a)
  | .error e a => some (.error e a)

theorem Machine.finish_eq_resume (settings : ExecSettings) (call : Caller) (p : Lowered)
    (m : Machine) (a : Activation) :
    m.finish settings call p a = resume settings call p (m.step settings call p a) := by
  rw [finish]
  generalize m.step settings call p a = r
  cases r with
  | ok t a => cases t <;> rfl
  | error e a => rfl

end Tiered
