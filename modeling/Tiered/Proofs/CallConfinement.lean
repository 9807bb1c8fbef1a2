import Tiered.Proofs.Confinement
import Tiered.Proofs.InternalErrors

/-! The stack machine and calls under a discipline: values on both stacks, in frames and in slots
refer to owned function values only, from call to call. -/
namespace Tiered

/-- Both stacks hold values that refer to owned function values only. -/
structure Machine.Within (owns : Nat → Prop) (m : Machine) : Prop where
  stack : ∀ v ∈ m.stack, v.Within owns
  iterators : ∀ items ∈ m.iterators, ∀ v ∈ items, v.Within owns

def Transition.Within (owns : Nat → Prop) : Transition → Prop
  | .next m => m.Within owns
  | .done v => v.Within owns

namespace Machine

variable {owns : Nat → Prop} {m : Machine} {p : Lowered}

theorem push_within (hm : m.Within owns) {v : Value} (hv : v.Within owns) :
    (m.push v).Within owns :=
  ⟨List.forall_mem_cons.mpr ⟨hv, hm.stack⟩, hm.iterators⟩

theorem push_confines {inv : Activation → Prop} (hm : m.Within owns) {v : Value}
    (hv : v.Within owns) :
    Confines inv (Transition.Within owns) (pure (.next (m.push v))) :=
  .pure (push_within hm hv)

theorem fault_confines {α : Type} {inv : Activation → Prop} {q : α → Prop} (cause : Fault) :
    Confines inv q (m.fault p cause) :=
  .raise _

theorem pop_confines {inv : Activation → Prop} (hm : m.Within owns) :
    Confines inv (fun r => r.1.Within owns ∧ r.2.Within owns) (m.pop p) := by
  unfold pop
  split
  · rename_i v rest hstack
    have hmem := hm.stack
    rw [hstack] at hmem
    obtain ⟨hv, hrest⟩ := List.forall_mem_cons.mp hmem
    exact .pure ⟨hv, hrest, hm.iterators⟩
  · exact fault_confines _

theorem popArgs_confines {inv : Activation → Prop} (hm : m.Within owns) (n : Nat) :
    Confines inv (fun r => (∀ v ∈ r.1, v.Within owns) ∧ r.2.Within owns) (m.popArgs p n) := by
  unfold popArgs
  split
  · refine .pure ⟨fun v hv => ?_, fun v hv => ?_, hm.iterators⟩
    · exact hm.stack v (List.mem_of_mem_take (List.mem_reverse.mp hv))
    · exact hm.stack v (List.mem_of_mem_drop hv)
  · exact fault_confines _

variable {C : Discipline}

/-- A load pushes what it yields. -/
theorem load_confines (hm : m.Within C.owns) {r : Activation → Except Failure Value}
    (hr : ∀ a, C.Acts a → Yields (Value.Within C.owns) (fun _ => True) (r a)) :
    Confines C.Acts (Transition.Within C.owns)
      (do let v ← Run.ofExcept (r (← get)); return .next (m.push v)) := by
  apply Confines.get_bind
  intro a ha
  exact (Confines.ofExcept (hr a ha)).bind (fun v hv => push_confines hm hv) a ha

variable {call : Caller} (hc : C.Callers call) (hf : ∀ fn ∈ p.functions.entries, C.admits fn)
  (hk : ∀ v ∈ p.unit.constants, v.Within C.owns)
include hc hf hk

theorem execute_confines (hm : m.Within C.owns) (i : Instr) :
    Confines C.Acts (Transition.Within C.owns) (execute call p m i) := by
  cases i with
  | pop => exact (pop_confines hm).bind fun r hr => .pure hr.2
  | pushNone => exact push_confines hm (Value.within_of_refs_eq_nil rfl)
  | pushSmall n => exact push_confines hm (Value.within_of_refs_eq_nil rfl)
  | pushConstant i =>
    rw [execute]
    cases hv : p.unit.constantAt? i with
    | none => exact fault_confines _
    | some v => exact push_confines hm (hk v (Array.mem_of_getElem? hv))
  | loadLocal slot => exact load_confines hm fun a ha => Frame.loadLocal_within ha.frame slot _
  | storeLocal slot =>
    apply (pop_confines hm).bind
    rintro ⟨v, m⟩ ⟨hv, hm⟩
    exact (C.storeLocal slot hv).bind fun _ _ => .pure hm
  | loadGlobal slot =>
    exact load_confines hm fun a ha => C.loadGlobal_within ha.frame ha.world slot _
  | storeGlobal slot =>
    apply (pop_confines hm).bind
    rintro ⟨v, m⟩ ⟨hv, hm⟩
    exact (C.storeGlobal slot hv).bind fun _ _ => .pure hm
  | loadUniversal i =>
    rw [execute]
    cases p.unit.nameAt? i with
    | none => exact fault_confines _
    | some name =>
      apply (Confines.ofExcept (C.loadUniversal_within name)).bind
      exact fun v hv => push_confines hm hv
  | jump d => exact .pure ⟨hm.stack, hm.iterators⟩
  | call n =>
    apply (popArgs_confines hm _).bind
    rintro ⟨args, m⟩ ⟨hargs, hm⟩
    apply (pop_confines hm).bind
    rintro ⟨callee, m⟩ ⟨hcallee, hm⟩
    apply (C.lift fun _ _ => hc callee { positional := args } hcallee ⟨hargs, by simp⟩).bind
    exact fun v hv => push_confines hm hv
  | ret => exact (pop_confines hm).bind fun r hr => .pure hr.1
  | getIter =>
    apply (pop_confines hm).bind
    rintro ⟨v, m⟩ ⟨hv, hm⟩
    apply (Confines.ofExcept (Value.items_within hv)).bind
    intro items hitems
    exact .pure ⟨hm.stack, List.forall_mem_cons.mpr ⟨hitems, hm.iterators⟩⟩
  | forIter d =>
    have hiterators := hm.iterators
    rw [execute]
    split
    · rename_i v items outer heq
      rw [heq] at hiterators
      obtain ⟨hitems, houter⟩ := List.forall_mem_cons.mp hiterators
      obtain ⟨hv, hitems⟩ := List.forall_mem_cons.mp hitems
      exact .pure ⟨(push_within hm hv).stack, List.forall_mem_cons.mpr ⟨hitems, houter⟩⟩
    · rename_i outer heq
      rw [heq] at hiterators
      exact .pure ⟨hm.stack, (List.forall_mem_cons.mp hiterators).2⟩
    · exact fault_confines _
  | makeFunction i =>
    rw [execute]
    cases hfn : (p.unit.functionAt? i).bind p.functions.get? with
    | none => exact fault_confines _
    | some fn =>
      obtain ⟨id, -, hid⟩ := Option.bind_eq_some_iff.mp hfn
      have hadmits : C.admits fn := hf fn (List.mem_of_find?_eq_some hid)
      apply (C.emit _).bind
      intro _ _
      apply (C.define hadmits).bind
      intro f howns
      exact push_confines hm (Value.within_function.mpr howns)
  | add =>
    apply (pop_confines hm).bind
    rintro ⟨b, m⟩ ⟨hb, hm⟩
    apply (pop_confines hm).bind
    rintro ⟨a, m⟩ ⟨ha, hm⟩
    apply (Confines.ofExcept (Value.add_within ha hb)).bind
    exact fun v hv => push_confines hm hv

variable (settings : ExecSettings)

theorem step_confines (hm : m.Within C.owns) :
    Confines C.Acts (Transition.Within C.owns) (m.step settings call p) := by
  unfold step
  cases p.unit.byte? m.ip with
  | none => exact fault_confines _
  | some byte =>
    simp only
    cases Opcode.ofByte? byte with
    | none => exact fault_confines _
    | some op =>
      apply C.announce
      rcases fetch_cases p { m with ip := m.ip + 1 } op with h | ⟨i, ip, h⟩ <;> rw [h]
      · exact fault_confines _
      · have hnext : Machine.Within C.owns { m with ip := ip } := ⟨hm.stack, hm.iterators⟩
        exact execute_confines hc hf hk hnext _

theorem finish_confines (hm : m.Within C.owns) {a : Activation} (ha : C.Acts a)
    {r : EStateM.Result Stop Activation Value} (hr : finish settings call p m a = some r) :
    LeavesIn C.Acts (Value.Within C.owns) r := by
  -- Induction on the run: a step leads from an owned machine to an owned one.
  refine finish.partial_correctness settings call p
    (fun m a r => m.Within C.owns → C.Acts a → LeavesIn C.Acts (Value.Within C.owns) r)
    (fun rest ih m a r hr hm ha => ?_) m a r hr hm ha
  have hstep := step_confines hc hf hk settings hm a ha
  generalize m.step settings call p a = x at hr hstep
  cases x with
  | error e b =>
    obtain rfl := Option.some.inj hr
    exact hstep
  | ok t b =>
    cases t with
    | next m => exact ih m b r hr hstep.1 hstep.2
    | done v =>
      obtain rfl := Option.some.inj hr
      exact hstep

end Machine

theorem Lowered.execute_confines {C : Discipline} {call : Caller} (hc : C.Callers call)
    {p : Lowered} (hf : ∀ fn ∈ p.functions.entries, C.admits fn)
    (hk : ∀ v ∈ p.unit.constants, v.Within C.owns) (settings : ExecSettings) :
    Confines C.Acts (Value.Within C.owns) (p.execute settings call) := by
  intro a ha
  unfold Lowered.execute
  cases hr : Machine.finish settings call p {} a with
  | none => exact ha
  | some r => exact Machine.finish_confines hc hf hk settings ⟨by simp, by simp⟩ ha hr

/-- Either engine comes to owned function values only. -/
theorem Callable.run_confines {C : Discipline} {call : Caller} (hc : C.Callers call)
    (settings : ExecSettings) {c : Callable} (hcode : c.code.Keeps C.admits C.owns c.fn) :
    Confines C.Acts (Value.Within C.owns) (c.run settings call) := by
  unfold Callable.run
  generalize c.code = code at hcode
  cases code with
  | interpreted => exact FunctionDef.interpret_confines C hc settings hcode
  | specialized unit => exact Lowered.execute_confines hc hcode.1 hcode.2 settings

namespace Builtin

variable {owns : Nat → Prop}

theorem length_within (args : List Value) :
    Yields (Value.Within owns) (fun _ => True) (length args) := by
  unfold length
  cases oneArg "len" args with
  | error e => trivial
  | ok v =>
    cases v with
    | str _ | list _ => exact Value.within_of_refs_eq_nil rfl
    | none | bool _ | int _ | function _ | builtin _ => trivial

theorem integers_within (start stop : Int) : (Value.list (integers start stop)).Within owns := by
  refine Value.within_list.mpr fun v hv => ?_
  obtain ⟨i, -, rfl⟩ := List.mem_map.mp hv
  exact Value.within_of_refs_eq_nil rfl

theorem rangeList_within (args : List Value) :
    Yields (Value.Within owns) (fun _ => True) (rangeList args) := by
  have hbound (v : Value) : Yields (fun _ => True) (fun _ => True) (rangeBound v) := by
    cases rangeBound v <;> trivial
  unfold rangeList
  split
  · exact (hbound _).bind fun _ _ => integers_within _ _
  · exact (hbound _).bind fun _ _ => (hbound _).bind fun _ _ => integers_within _ _
  · trivial

end Builtin

/-- Builtins of a host under a discipline: given owned function values only, and calls that keep to
the discipline, they keep to it themselves. -/
def Host.Keeps (host : Host) (C : Discipline) : Prop :=
  ∀ call, C.Callers call → ∀ name args, (∀ v ∈ args, v.Within C.owns) →
    Confines C.inv (Value.Within C.owns) (host name call args)

namespace Discipline

variable (C : Discipline)

theorem inCall {α : Type} {q : α → Prop} {x : Run World α} (limit : Nat)
    (hx : Confines C.inv q x) : Confines C.inv q (World.inCall limit x) := by
  intro w hw
  unfold World.inCall World.beginCall
  by_cases hd : w.depth < limit
  · have he := hx { w with depth := w.depth + 1 } (C.same hw rfl rfl)
    simp only [if_pos hd]
    generalize x { w with depth := w.depth + 1 } = r at he ⊢
    cases r with
    | ok a v => exact ⟨he.1, C.same he.2 rfl rfl⟩
    | error e v => exact C.same he rfl rfl
  · simp only [if_neg hd]
    exact hw

theorem report (e : Event) : Confines C.inv (fun _ => True) (World.emit e) :=
  fun _ hw => ⟨trivial, C.same hw rfl rfl⟩

theorem enter {α : Type} {q : α → Prop} {x : Run Activation α} {frame : Frame}
    (hf : frame.Within C.owns) (hx : Confines C.Acts q x) :
    Confines C.inv q (Activation.enter frame x) := by
  intro w hw
  have he := hx ⟨frame, w⟩ ⟨hf, hw⟩
  unfold Activation.enter
  generalize x ⟨frame, w⟩ = r at he ⊢
  cases r with
  | ok a b => exact ⟨he.1, he.2.world⟩
  | error e b => exact he.world

variable {C} {call : Caller} (hc : C.Callers call) (settings : ExecSettings)
include hc

theorem function_call {c : Callable} (hcode : c.code.Keeps C.admits C.owns c.fn)
    {f : FunctionRef} (hf : C.owns f.index) {args : Arguments} (ha : args.Within C.owns) :
    Confines C.inv (Value.Within C.owns) (c.call settings call f args) := by
  unfold Callable.call
  apply C.inCall
  apply (Confines.ofExcept (c.fn.bind_within hf ha)).bind
  intro frame hframe
  apply Confines.get_bind
  intro w hw
  have hrun := C.enter hframe (c.run_confines hc settings hcode)
  exact (C.report _).bind (fun _ _ => hrun) w hw

theorem builtin_call {host : Host} (hhost : host.Keeps C) (b : Builtin) {args : Arguments}
    (ha : args.Within C.owns) :
    Confines C.inv (Value.Within C.owns) (b.call settings host call args) := by
  unfold Builtin.call
  split
  · apply C.inCall
    apply (C.report _).bind
    intro _ _
    cases b with
    | len => exact .ofExcept (Builtin.length_within _)
    | range => exact .ofExcept (Builtin.rangeList_within _)
    | str | typeOf =>
      apply Confines.bind (p := fun _ => True)
      · exact .ofExcept (by unfold Builtin.oneArg; split <;> trivial)
      · exact fun v _ => .pure (Value.within_of_refs_eq_nil rfl)
    | print =>
      apply Confines.bind (p := fun _ => True)
      · exact fun w hw => ⟨trivial, C.same hw rfl rfl⟩
      · exact fun _ _ => .pure (Value.within_of_refs_eq_nil rfl)
    | host name => exact hhost call hc name _ ha.positional
  · exact .raise _

end Discipline

/-- Calls keep to the discipline, however deep they nest and whatever engines they lead to. -/
theorem Discipline.applyValue {C : Discipline} {host : Host} (hhost : host.Keeps C)
    (settings : ExecSettings) (n : Nat) : C.Callers (Tiered.applyValue settings host n) := by
  induction n with
  | zero => exact fun f args _ _ w hw => hw
  | succ n ih =>
    intro callee args hcallee hargs
    cases callee with
    | function f =>
      intro w hw
      cases hcall : w.callable? f with
      | none =>
        rw [applyValue_of_not_callable hcall]
        exact hw
      | some c =>
        rw [applyValue_of_callable hcall]
        exact function_call ih settings (C.callable hw hcall) (Value.within_function.mp hcallee)
          hargs w hw
    | builtin b => exact builtin_call ih settings hhost b hargs
    | none | bool _ | int _ | str _ | list _ => exact .raise _

theorem Demo.callingHost_keeps (C : Discipline) : callingHost.Keeps C := by
  intro call hcall name args hargs
  cases args with
  | nil => exact .raise _
  | cons f rest =>
    obtain ⟨hf, hrest⟩ := List.forall_mem_cons.mp hargs
    exact hcall f _ hf ⟨hrest, by simp⟩

end Tiered
