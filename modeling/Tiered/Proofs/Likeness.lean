import Tiered.Exec.Call
import Tiered.Proofs.Scripts

/-! Likeness of runs. A relation between runs that carries over from one run to the next, and that
holds of the actions of code, holds of either engine and of what calls enter. -/
namespace Tiered

namespace Machine

variable (p : Lowered) (m : Machine)

theorem fault_scripted {α : Type} (cause : Fault) :
    FrameScript fun _ _ => (m.fault p cause : Run Activation α) :=
  .raise rfl

theorem pop_scripted : FrameScript fun _ _ => m.pop p := by
  unfold pop
  split
  · exact .pure _
  · exact fault_scripted p m _

theorem popArgs_scripted (n : Nat) : FrameScript fun _ _ => m.popArgs p n := by
  unfold popArgs
  split
  · exact .pure _
  · exact fault_scripted p m _

/-- A load pushes what it finds. -/
theorem load_scripted {q : Activation → Except Failure Value} (h : ∀ a, CallFree (q a)) :
    FrameScript fun _ _ =>
      (do let v ← Run.ofExcept (q (← get)); return .next (m.push v) : Run Activation Transition) :=
  (FrameScript.look h).bind fun _ => .pure _

theorem execute_scripted (i : Instr) : FrameScript fun _ call => execute call p m i := by
  have hpop (m : Machine) : FrameScript fun _ _ => m.pop p := pop_scripted p m
  cases i with
  | pop => exact (hpop m).bind fun _ => .pure _
  | pushNone => exact .pure _
  | pushSmall n => exact .pure _
  | pushConstant i =>
    simp only [execute]
    cases p.unit.constantAt? i with
    | none => exact fault_scripted p m _
    | some v => exact .pure _
  | loadLocal slot => exact load_scripted m fun a => a.frame.loadLocal_callFree slot _
  | storeLocal slot =>
    exact (hpop m).bind fun r => (FrameScript.storeLocal slot r.1).bind fun _ => .pure _
  | loadGlobal slot =>
    exact load_scripted m (q := fun a => a.frame.loadGlobal a.world slot (p.unit.nameOfGlobal slot))
      fun a => a.frame.loadGlobal_callFree a.world slot _
  | storeGlobal slot =>
    exact (hpop m).bind fun r => (FrameScript.storeGlobal slot r.1).bind fun _ => .pure _
  | loadUniversal i =>
    simp only [execute]
    cases p.unit.nameAt? i with
    | none => exact fault_scripted p m _
    | some name => exact (FrameScript.ofExcept (loadUniversal_callFree name)).bind fun v => .pure _
  | jump d => exact .pure _
  | call n =>
    exact (popArgs_scripted p m _).bind fun r => (hpop r.2).bind fun q =>
      (FrameScript.lift fun _ => .call q.1 { positional := r.1 }).bind fun _ => .pure _
  | ret => exact (hpop m).bind fun r => .pure _
  | getIter =>
    exact (hpop m).bind fun r => (FrameScript.ofExcept r.1.items_callFree).bind fun items => .pure _
  | forIter d =>
    simp only [execute]
    split
    · exact .pure _
    · exact .pure _
    · exact fault_scripted p m _
  | makeFunction i =>
    simp only [execute]
    cases (p.unit.functionAt? i).bind p.functions.get? with
    | none => exact fault_scripted p m _
    | some fn =>
      exact (FrameScript.emit _).bind fun _ => (FrameScript.define fn).bind fun f => .pure _
  | add =>
    exact (hpop m).bind fun r => (hpop r.2).bind fun q =>
      (FrameScript.ofExcept (q.1.add_callFree r.1)).bind fun v => .pure _

theorem step_scripted : FrameScript fun settings call => m.step settings call p := by
  unfold step
  cases p.unit.byte? m.ip with
  | none => exact fault_scripted p m _
  | some byte =>
    simp only
    cases Opcode.ofByte? byte with
    | none => exact fault_scripted p m _
    | some op =>
      apply FrameScript.announce
      rcases fetch_cases p { m with ip := m.ip + 1 } op with h | ⟨i, ip, h⟩ <;> rw [h]
      · exact fault_scripted p _ _
      · exact execute_scripted p _ _

variable (settings : ExecSettings) (call : Caller)

/-- The first `n` steps of a run. The value is that of the run, if it has returned by then. -/
def advance : Nat → Machine → Run Activation (Option Value)
  | 0, _ => pure none
  | n + 1, m => do
    match ← m.step settings call p with
    | .next m => advance n m
    | .done v => return some v

/-- What `advance` shows of a run that has come to its end. -/
def ended : EStateM.Result Stop Activation Value → EStateM.Result Stop Activation (Option Value)
  | .ok v a => .ok (some v) a
  | .error e a => .error e a

theorem advance_succ (n : Nat) (a : Activation) :
    advance p settings call (n + 1) m a =
      match m.step settings call p a with
      | .ok (.next m) a => advance p settings call n m a
      | .ok (.done v) a => .ok (some v) a
      | .error e a => .error e a := by
  rw [advance]
  change EStateM.bind (m.step settings call p) _ a = _
  unfold EStateM.bind
  generalize m.step settings call p a = r
  cases r with
  | ok t a => cases t <;> rfl
  | error e a => rfl

variable {p settings call}

/-- A run comes to its end after finitely many steps. -/
theorem finish_eq_some_iff {m : Machine} {a : Activation}
    {r : EStateM.Result Stop Activation Value} :
    m.finish settings call p a = some r ↔ ∃ n, advance p settings call n m a = ended r := by
  constructor
  · intro h
    refine finish.partial_correctness settings call p
      (fun m a r => ∃ n, advance p settings call n m a = ended r)
      (fun rest ih m a r hr => ?_) m a r h
    cases hstep : m.step settings call p a with
    | error e b =>
      rw [hstep] at hr
      obtain rfl := Option.some.inj hr
      exact ⟨1, by rw [advance_succ, hstep]; rfl⟩
    | ok t b =>
      rw [hstep] at hr
      cases t with
      | next m' =>
        obtain ⟨n, hn⟩ := ih m' b r hr
        exact ⟨n + 1, by rw [advance_succ, hstep]; exact hn⟩
      | done v =>
        obtain rfl := Option.some.inj hr
        exact ⟨1, by rw [advance_succ, hstep]; rfl⟩
  · rintro ⟨n, hn⟩
    induction n generalizing m a with
    | zero =>
      rw [advance] at hn
      cases r with
      | ok v b => cases hn
      | error e b => cases hn
    | succ n ih =>
      rw [advance_succ] at hn
      rw [finish]
      cases hstep : m.step settings call p a with
      | error e b =>
        rw [hstep] at hn
        cases r with
        | ok v c => cases hn
        | error e c =>
          cases hn
          rfl
      | ok t b =>
        rw [hstep] at hn
        cases t with
        | next m' => exact ih hn
        | done v =>
          cases r with
          | ok v c =>
            cases hn
            rfl
          | error e c => cases hn

/-- The first steps of a run in `frame` already show how it ends. -/
inductive Shows : EStateM.Result Stop World (Option Value × Frame) →
    EStateM.Result Stop World Value → Prop
  | ok {v : Value} {frame : Frame} {w : World} : Shows (.ok (some v, frame) w) (.ok v w)
  | error {e : Stop} {w : World} : Shows (.error e w) (.error e w)

theorem enter_execute_of_finish {p : Lowered} {settings : ExecSettings} {call : Caller}
    {frame : Frame} {w : World} {r : EStateM.Result Stop Activation Value}
    (h : finish settings call p {} ⟨frame, w⟩ = some r) :
    ∃ n, Shows (Activation.detach frame (advance p settings call n {}) w)
      (Activation.enter frame (p.execute settings call) w) := by
  obtain ⟨n, hn⟩ := finish_eq_some_iff.mp h
  refine ⟨n, ?_⟩
  unfold Activation.enter Activation.detach Lowered.execute
  rw [h, hn]
  cases r with
  | ok v a => exact .ok
  | error e a => exact .error

/-- A unit that is run in a call either comes to its end after finitely many steps, or goes round
for ever, which no fuel suffices for. -/
theorem enter_execute_cases (p : Lowered) (settings : ExecSettings) (call : Caller) (frame : Frame)
    (w : World) :
    (∃ n, Shows (Activation.detach frame (advance p settings call n {}) w)
      (Activation.enter frame (p.execute settings call) w)) ∨
    (∀ n, ∃ g v, Activation.detach frame (advance p settings call n {}) w = .ok (none, g) v) ∧
      Activation.enter frame (p.execute settings call) w = .error .outOfFuel w := by
  cases hfinish : finish settings call p {} ⟨frame, w⟩ with
  | some r => exact .inl (enter_execute_of_finish hfinish)
  | none =>
    refine .inr ⟨fun n => ?_, ?_⟩
    · have hnever (r : EStateM.Result Stop Activation Value) :
          advance p settings call n {} ⟨frame, w⟩ ≠ ended r := fun h => by
        rw [finish_eq_some_iff.mpr ⟨n, h⟩] at hfinish
        cases hfinish
      unfold Activation.detach
      cases hn : advance p settings call n {} ⟨frame, w⟩ with
      | error e a => exact absurd hn (hnever (.error e a))
      | ok result a =>
        cases result with
        | some v => exact absurd hn (hnever (.ok v a))
        | none => exact ⟨a.frame, a.world, rfl⟩
    · unfold Activation.enter Lowered.execute
      rw [hfinish]
      rfl

theorem enter_execute_eq {p : Lowered} {settings : ExecSettings} {call : Caller} {frame : Frame}
    {w : World} {n : Nat} {r : EStateM.Result Stop World Value}
    (h : Shows (Activation.detach frame (advance p settings call n {}) w) r) :
    Activation.enter frame (p.execute settings call) w = r := by
  have hend (q : EStateM.Result Stop Activation Value)
      (hq : advance p settings call n {} ⟨frame, w⟩ = ended q) :
      p.execute settings call ⟨frame, w⟩ = q := by
    unfold Lowered.execute
    rw [finish_eq_some_iff.mpr ⟨n, hq⟩]
    rfl
  unfold Activation.enter
  unfold Activation.detach at h
  cases hn : advance p settings call n {} ⟨frame, w⟩ with
  | error e a =>
    rw [hn] at h
    cases h
    rw [hend (.error e a) hn]
  | ok result a =>
    rw [hn] at h
    cases result with
    | none => cases h
    | some v =>
      cases h
      rw [hend (.ok v a) hn]

theorem advance_scripted (p : Lowered) (n : Nat) (m : Machine) :
    FrameScript fun settings call => advance p settings call n m := by
  induction n generalizing m with
  | zero => exact .pure none
  | succ n ih =>
    simp only [advance]
    apply (step_scripted p m).bind
    intro t
    cases t with
    | next m => exact ih m
    | done v => exact .pure _

end Machine

section Calls

def released {α : Type} : EStateM.Result Stop World α → EStateM.Result Stop World α
  | .ok a w => .ok a w.endCall
  | .error e w => .error e w.endCall

theorem inCall_of_lt {α : Type} {limit : Nat} {w : World} (h : w.depth < limit) (x : Run World α) :
    World.inCall limit x w = released (x { w with depth := w.depth + 1 }) := by
  unfold World.inCall World.beginCall
  rw [if_pos h]
  dsimp only
  cases x { w with depth := w.depth + 1 } with
  | ok a v => rfl
  | error e v => rfl

theorem inCall_of_le {α : Type} {limit : Nat} {w : World} (h : limit ≤ w.depth) (x : Run World α) :
    World.inCall limit x w = .error (.raised (.callDepthExceeded limit)) w := by
  unfold World.inCall World.beginCall
  rw [if_neg (Nat.not_lt.mpr h)]

variable (settings : ExecSettings) (call : Caller)

def Callable.body (c : Callable) (f : FunctionRef) (args : Arguments) : Run World Value := do
  let frame ← Run.ofExcept (c.fn.bind f args)
  World.emit (.callFunction c.qualifiedName c.code.isSpecialized (← get).depth)
  Activation.enter frame (c.run settings call)

def Builtin.body (host : Host) (b : Builtin) (args : List Value) : Run World Value := do
  World.emit (.callBuiltin b.name args.length)
  b.run host call args

/-- What a call of `callee` is to enter, if `w` is how it finds the world. Functions can be entered,
and builtins that are given no keywords. -/
def bodyOf (host : Host) (callee : Value) (args : Arguments) (w : World) :
    Except Failure (Run World Value) :=
  match callee with
  | .function f =>
    match w.callable? f with
    | some c => .ok (c.body settings call f args)
    | none => .error (.notCallable callee.typeName)
  | .builtin b =>
    if args.keywords.isEmpty then .ok (b.body call host args.positional)
    else .error (.keywordsNotAccepted b.name)
  | v => .error (.notCallable v.typeName)

/-- A call either fails at once, or enters its body unless too many calls are active. -/
theorem applyValue_eq_bodyOf (host : Host) (n : Nat) (callee : Value) (args : Arguments)
    (w : World) :
    applyValue settings host (n + 1) callee args w =
      match bodyOf settings (applyValue settings host n) host callee args w with
      | .ok body => World.inCall settings.maxCallDepth body w
      | .error e => .error (.raised e) w := by
  have hget : (get : Run World World) w = .ok w w := rfl
  cases callee with
  | function f =>
    cases hc : w.callable? f with
    | some c =>
      simp only [applyValue, bind, EStateM.bind, hget, hc, bodyOf]
      rfl
    | none =>
      simp only [applyValue, bind, EStateM.bind, hget, hc, bodyOf]
      rfl
  | builtin b =>
    simp only [applyValue, bodyOf, Builtin.call]
    split
    · rfl
    · rfl
  | none | bool _ | int _ | str _ | list _ => rfl

end Calls

/-- A relation between runs that carries over from one run to the next, and that the actions of code
keep. -/
structure Likeness where
  rel {α : Type} : Run World α → Run World α → Prop
  bind {α β : Type} {x y : Run World α} {f g : α → Run World β} (h : rel x y)
    (hf : ∀ a, rel (f a) (g a)) : rel (x >>= f) (y >>= g)
  act {α : Type} {x : Run World α} (h : Action x) : rel x x

namespace Likeness

variable (L : Likeness)

def Callers (call call' : Caller) : Prop :=
  ∀ f args, L.rel (call f args) (call' f args)

variable {L} {settings settings' : ExecSettings} {call call' : Caller}

/-- A script runs alike with calls that do. -/
theorem scripted {own : (α : Type) → Run World α → Prop} (hown : ∀ α x, own α x → L.rel x x)
    (ht : settings.trace = settings'.trace) (hc : L.Callers call call') {α : Type} {x : Script α}
    (h : Scripted own x) : L.rel (x settings call) (x settings' call') := by
  induction h with
  | act h => exact hown _ _ h
  | report e =>
    dsimp only
    rw [ht]
    split
    · exact L.act (.emit e)
    · exact L.act (.look (fun _ => .ok ()) fun _ => trivial)
  | call f args => exact hc f args
  | bind _ _ hx hf => exact L.bind hx hf

theorem ownScript (ht : settings.trace = settings'.trace) (hc : L.Callers call call') {α : Type}
    {x : Script α} (h : OwnScript x) : L.rel (x settings call) (x settings' call') :=
  scripted (fun _ _ h => L.act h) ht hc h

variable (L)

/-- Runs of the unit are alike, with calls that are. -/
def Executes (p : Lowered) : Prop :=
  ∀ settings settings' : ExecSettings, settings.trace = settings'.trace → ∀ call call',
    L.Callers call call' → ∀ frame, L.rel (Activation.enter frame (p.execute settings call))
      (Activation.enter frame (p.execute settings' call'))

variable {L}

theorem function_body (ht : settings.trace = settings'.trace) (hc : L.Callers call call')
    {c : Callable} (hunit : ∀ unit, c.code = .specialized unit → L.Executes unit.code)
    (f : FunctionRef) (args : Arguments) :
    L.rel (c.body settings call f args) (c.body settings' call' f args) := by
  apply L.bind (L.act (.look (fun _ => c.fn.bind f args) fun _ => c.fn.bind_callFree f args))
  intro frame
  have hget : L.rel (get : Run World World) get := L.act (.look (fun w => .ok w) fun _ => trivial)
  apply L.bind hget
  intro w
  apply L.bind (L.act (.emit _))
  intro _
  unfold Callable.run
  cases hcode : c.code with
  | interpreted =>
    simp only [Activation.enter_eq_detach]
    exact L.bind (ownScript ht hc (c.fn.interpret_scripted frame)) fun r =>
      ownScript ht hc (.pure _)
  | specialized unit => exact hunit unit hcode settings settings' ht call call' hc frame

theorem builtin_body {host : Host}
    (hhost : ∀ name args, L.rel (host name call args) (host name call' args)) (b : Builtin)
    (args : List Value) : L.rel (b.body call host args) (b.body call' host args) := by
  have hpure (v : Value) : L.rel (pure v : Run World Value) (pure v) :=
    L.act (.look (fun _ => .ok v) fun _ => trivial)
  have hexcept {α : Type} {r : Except Failure α} (h : CallFree r) :
      L.rel (Run.ofExcept r : Run World α) (Run.ofExcept r) := L.act (.look (fun _ => r) fun _ => h)
  apply L.bind (L.act (.emit _))
  intro _
  cases b with
  | len => exact hexcept (Builtin.length_callFree args)
  | range => exact hexcept (Builtin.rangeList_callFree args)
  | str => exact L.bind (hexcept (Builtin.oneArg_callFree _ args)) fun v => hpure _
  | typeOf => exact L.bind (hexcept (Builtin.oneArg_callFree _ args)) fun v => hpure _
  | print => exact L.bind (L.act (.print _)) fun _ => hpure _
  | host name => exact hhost name args

/-- Two calls of the same value find bodies that run alike, or fail alike with nothing entered. -/
theorem bodyOf_cases (ht : settings.trace = settings'.trace) (hc : L.Callers call call')
    {host : Host} (hhost : ∀ name args, L.rel (host name call args) (host name call' args))
    {w : World} (hunits : ∀ f c unit, w.callable? f = some c → c.code = .specialized unit →
      L.Executes unit.code) (callee : Value) (args : Arguments) :
    (∃ x y, bodyOf settings call host callee args w = .ok x ∧
      bodyOf settings' call' host callee args w = .ok y ∧ L.rel x y) ∨
    ∃ e, e.refusesCall = false ∧ bodyOf settings call host callee args w = .error e ∧
      bodyOf settings' call' host callee args w = .error e := by
  cases callee with
  | function f =>
    cases hf : w.callable? f with
    | some c =>
      simp only [bodyOf, hf]
      exact .inl ⟨_, _, rfl, rfl, function_body ht hc (fun unit => hunits f c unit hf) f args⟩
    | none =>
      simp only [bodyOf, hf]
      exact .inr ⟨_, rfl, rfl, rfl⟩
  | builtin b =>
    simp only [bodyOf]
    split
    · exact .inl ⟨_, _, rfl, rfl, builtin_body hhost b args.positional⟩
    · exact .inr ⟨_, rfl, rfl, rfl⟩
  | none | bool _ | int _ | str _ | list _ => exact .inr ⟨_, rfl, rfl, rfl⟩

end Likeness

end Tiered
