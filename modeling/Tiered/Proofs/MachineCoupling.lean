import Tiered.Proofs.Coupling

/-! The stack machine on both sides of a coupling, where internal errors are reasons to stop: the
same unit, from the same machine, ends in the same way. -/
namespace Tiered

namespace Machine

variable {C : Coupling} (hl : C.Lenient)
include hl

theorem fault_coupled {α : Type} {rel : Activation → Activation → Prop} (p : Lowered) (m : Machine)
    (cause : Fault) : Coupled C.reasons rel (m.fault p cause : Run Activation α) (m.fault p cause) :=
  .raise (hl _)

theorem pop_coupled {rel : Activation → Activation → Prop} (p : Lowered) (m : Machine) :
    Coupled C.reasons rel (m.pop p) (m.pop p) := by
  unfold pop
  split
  · exact .pure _
  · exact fault_coupled hl p m _

theorem popArgs_coupled {rel : Activation → Activation → Prop} (p : Lowered) (m : Machine)
    (n : Nat) : Coupled C.reasons rel (m.popArgs p n) (m.popArgs p n) := by
  unfold popArgs
  split
  · exact .pure _
  · exact fault_coupled hl p m _

/-- A load that both sides agree on. -/
theorem load_coupled {n : Nat} (m : Machine) {r : Activation → Except Failure Value}
    (hr : ∀ a b, C.Acts n a b → r a = r b) :
    Coupled C.reasons (C.Acts n)
      (do let v ← Run.ofExcept (r (← get)); return .next (m.push v) : Run Activation Transition)
      (do let v ← Run.ofExcept (r (← get)); return .next (m.push v)) := by
  apply Coupled.get_bind
  intro a b h
  have hy : Yields (fun _ => True) (fun e => C.reasons (.raised e) (.raised e)) (r b) := by
    cases r b with
    | ok v => trivial
    | error e => exact hl e
  rw [hr a b h]
  exact (Coupled.ofExcept hy).bind (fun v => .pure _) a b h

variable {call call' : Caller} (hc : C.Callers call call') {p : Lowered}
  (hp : ∀ fn ∈ p.functions.entries, C.admits fn)
include hc hp

theorem execute_coupled {n : Nat} (m : Machine) (i : Instr) :
    Coupled C.reasons (C.Acts n) (execute call p m i) (execute call' p m i) := by
  have hpop (m : Machine) : Coupled C.reasons (C.Acts n) (m.pop p) (m.pop p) := pop_coupled hl p m
  cases i with
  | pop => exact (hpop m).bind fun _ => .pure _
  | pushNone => exact .pure _
  | pushSmall n => exact .pure _
  | pushConstant i =>
    rw [execute, execute]
    cases p.unit.constantAt? i with
    | none => exact fault_coupled hl p m _
    | some v => exact .pure _
  | loadLocal slot => exact load_coupled hl m fun a b h => by rw [h.frame]
  | storeLocal slot =>
    exact (hpop m).bind fun r => (C.storeLocal (.inl hl) r.1).bind fun _ => .pure _
  | loadGlobal slot =>
    refine load_coupled hl m
      (r := fun a => a.frame.loadGlobal a.world slot (p.unit.nameOfGlobal slot)) fun a b h => ?_
    rw [h.frame, Frame.loadGlobal, Frame.loadGlobal, C.readGlobal h.world]
  | storeGlobal slot => exact (hpop m).bind fun r => (C.storeGlobal slot r.1).bind fun _ => .pure _
  | loadUniversal i =>
    rw [execute, execute]
    cases p.unit.nameAt? i with
    | none => exact fault_coupled hl p m _
    | some name => exact (C.ofExcept (loadUniversal_ne_internal name)).bind fun v => .pure _
  | jump d => exact .pure _
  | call n =>
    exact (popArgs_coupled hl p m _).bind fun r => (hpop r.2).bind fun q =>
      (C.lift fun _ _ => hc q.1 { positional := r.1 }).bind fun v => .pure _
  | ret => exact (hpop m).bind fun r => .pure _
  | getIter =>
    exact (hpop m).bind fun r => (C.ofExcept r.1.items_ne_internal).bind fun items => .pure _
  | forIter d =>
    rw [execute, execute]
    split
    · exact .pure _
    · exact .pure _
    · exact fault_coupled hl p m _
  | makeFunction i =>
    rw [execute, execute]
    cases hf : (p.unit.functionAt? i).bind p.functions.get? with
    | none => exact fault_coupled hl p m _
    | some fn =>
      obtain ⟨id, -, hid⟩ := Option.bind_eq_some_iff.mp hf
      have hm : C.admits fn := hp fn (List.mem_of_find?_eq_some hid)
      exact (C.emit rfl).bind fun _ => (C.define hm).bind fun f => .pure _
  | add =>
    exact (hpop m).bind fun r => (hpop r.2).bind fun q =>
      (C.ofExcept (q.1.add_ne_internal r.1)).bind fun v => .pure _

variable {settings settings' : ExecSettings} (ht : C.Traces settings settings')
include ht

theorem step_coupled {n : Nat} (m : Machine) :
    Coupled C.reasons (C.Acts n) (m.step settings call p) (m.step settings' call' p) := by
  unfold step
  cases p.unit.byte? m.ip with
  | none => exact fault_coupled hl p m _
  | some byte =>
    simp only
    cases Opcode.ofByte? byte with
    | none => exact fault_coupled hl p m _
    | some op =>
      apply C.announce ht rfl
      rcases fetch_cases p { m with ip := m.ip + 1 } op with h | ⟨i, ip, h⟩ <;> rw [h]
      · exact fault_coupled hl p _ _
      · exact execute_coupled hl hc hp _ _

/-- If one side comes to an end, so does the other. -/
theorem finish_coupled {n : Nat} (m : Machine) (a : Activation)
    (r : EStateM.Result Stop Activation Value) (hr : finish settings call p m a = some r) :
    ∀ b, C.Acts n a b →
      ∃ r', finish settings' call' p m b = some r' ∧ SameEnd C.reasons (C.Acts n) r r' := by
  -- Induction on the run that ends: it has as many steps as the other one.
  refine finish.partial_correctness settings call p
    (fun m a r => ∀ b, C.Acts n a b → ∃ r', finish settings' call' p m b = some r' ∧
      SameEnd C.reasons (C.Acts n) r r') (fun rest ih m a r hr b hab => ?_) m a r hr
  have hstep := step_coupled hl hc hp ht m a b hab
  rw [finish]
  generalize m.step settings call p a = x, m.step settings' call' p b = y at hr hstep ⊢
  cases hstep with
  | @ok t a b h =>
    cases t with
    | next m => exact ih m a r hr b h
    | done v =>
      obtain rfl := Option.some.inj hr
      exact ⟨_, rfl, .ok h⟩
  | error he h =>
    obtain rfl := Option.some.inj hr
    exact ⟨_, rfl, .error he h⟩

end Machine

end Tiered
