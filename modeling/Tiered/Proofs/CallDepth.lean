import Tiered.Proofs.Likeness
import Tiered.Proofs.Termination

/-! The depth of calls. The counter in the world is checked against a count of the active calls that
does not rely on it. -/
namespace Tiered

section Gauge

/-- Enters and leaves a call as the program does, with a gauge on the counter. Unless the body both
starts and ends at depth `level`, which has to be above `base` and within `limit`, the alarm goes
off. The call is released at that same depth, so that there is something to release. -/
def gauged (base level limit : Nat) (alarm body : Run World Value) : Run World Value := fun w =>
  let inside := { w with depth := w.depth + 1 }
  if inside.depth = level ∧ base < level ∧ level ≤ limit then
    match body inside with
    | .ok v after => if after.depth = level then .ok v after.endCall else alarm after
    | .error e after => if after.depth = level then .error e after.endCall else alarm after
  else alarm inside

/-- Calls that are told how many calls are active since the depth was `base`. A call that finds
another depth than the count says sets off the alarm. Where the depth has come to the limit, a body
that could be entered is refused; everywhere else it is entered, under the gauge. -/
def countedCall (settings : ExecSettings) (host : Host) (base : Nat) (refusal : Stop)
    (alarm : Run World Value) : (fuel active : Nat) → Caller
  | 0, _, _, _ => throw .outOfFuel
  | fuel + 1, active, callee, args => fun w =>
    if w.depth = base + active then
      match bodyOf settings (countedCall settings host base refusal alarm fuel (active + 1)) host
        callee args w with
      | .error e => .error (.raised e) w
      | .ok body =>
        if w.depth = settings.maxCallDepth then .error refusal w
        else gauged base (base + (active + 1)) settings.maxCallDepth alarm body w
    else alarm w

theorem countedCall_succ (settings : ExecSettings) (host : Host) (base : Nat) (refusal : Stop)
    (alarm : Run World Value) (fuel active : Nat) (callee : Value) (args : Arguments) (w : World) :
    countedCall settings host base refusal alarm (fuel + 1) active callee args w =
      if w.depth = base + active then
        match bodyOf settings (countedCall settings host base refusal alarm fuel (active + 1)) host
          callee args w with
        | .error e => .error (.raised e) w
        | .ok body =>
          if w.depth = settings.maxCallDepth then .error refusal w
          else gauged base (base + (active + 1)) settings.maxCallDepth alarm body w
      else alarm w :=
  rfl

/-- Calls as the program makes them, except that a call at the limit ends with `refusal`. -/
def refusingCall (settings : ExecSettings) (host : Host) (refusal : Stop) : (fuel : Nat) → Caller
  | 0, _, _ => throw .outOfFuel
  | fuel + 1, callee, args => fun w =>
    match bodyOf settings (refusingCall settings host refusal fuel) host callee args w with
    | .error e => .error (.raised e) w
    | .ok body =>
      if w.depth < settings.maxCallDepth then World.inCall settings.maxCallDepth body w
      else .error refusal w

theorem refusingCall_succ (settings : ExecSettings) (host : Host) (refusal : Stop) (fuel : Nat)
    (callee : Value) (args : Arguments) (w : World) :
    refusingCall settings host refusal (fuel + 1) callee args w =
      match bodyOf settings (refusingCall settings host refusal fuel) host callee args w with
      | .error e => .error (.raised e) w
      | .ok body =>
        if w.depth < settings.maxCallDepth then World.inCall settings.maxCallDepth body w
        else .error refusal w :=
  rfl

/-- The program refuses a call with the limit it has come to. -/
theorem refusingCall_eq_applyValue (settings : ExecSettings) (host : Host) (fuel : Nat) :
    refusingCall settings host (.raised (.callDepthExceeded settings.maxCallDepth)) fuel =
      applyValue settings host fuel := by
  induction fuel with
  | zero => rfl
  | succ fuel ih =>
    funext callee args w
    rw [refusingCall_succ, applyValue_eq_bodyOf, ih]
    cases bodyOf settings (applyValue settings host fuel) host callee args w with
    | error e => rfl
    | ok body =>
      dsimp only
      split
      · rfl
      · next hlimit => rw [inCall_of_le (Nat.not_lt.mp hlimit)]

end Gauge

section Steady

/-- From depth `n`, two runs are one and the same and end at depth `n`. -/
abbrev SteadyAt (n : Nat) {α : Type} (x y : Run World α) : Prop :=
  Agree (fun w => w.depth = n) (fun _ => True) x y

/-- Builtins of the host leave the depth as they find it if the calls they make do. Where those
calls are one and the same in two runs, so are the builtins. -/
def Host.KeepsDepth (host : Host) : Prop :=
  ∀ n call call', (∀ f args, SteadyAt n (call f args) (call' f args)) →
    ∀ name args, SteadyAt n (host name call args) (host name call' args)

theorem Action.depth_eq {α : Type} {x : Run World α} (h : Action x) (w : World) :
    EndsIn (fun v => v.depth = w.depth) (fun _ => True) (x w) := by
  cases h with
  | look q h =>
    dsimp only
    cases q w with
    | ok a => rfl
    | error e => exact ⟨trivial, rfl⟩
  | write f slot v => rfl
  | close fn f =>
    obtain ⟨log, hlog⟩ := World.allocClosure_eq fn f w
    rw [hlog]
    rfl
  | emit e => rfl
  | print line => rfl

def steadily (n : Nat) : Likeness where
  rel := SteadyAt n
  bind h hf :=
    coupled_iff_agree.mp ((coupled_iff_agree.mpr h).bind fun a => coupled_iff_agree.mpr (hf a))
  act h := by
    rintro w rfl
    exact ⟨rfl, h.depth_eq w⟩

theorem steadily_executes (n : Nat) (p : Lowered) : (steadily n).Executes p := by
  intro settings settings' ht call call' hc frame w hw
  have hsteps (k : Nat) := (steadily n).ownScript ht hc (Machine.advance_scripted p k {} frame) w hw
  rcases Machine.enter_execute_cases p settings call frame w with ⟨k, hk⟩ | ⟨hnever, hforever⟩
  · obtain ⟨heq, hdepth⟩ := hsteps k
    have hk' := hk
    rw [heq] at hk'
    refine ⟨(Machine.enter_execute_eq hk').symm, ?_⟩
    generalize Activation.detach frame (Machine.advance p settings call k {}) w = r,
      Activation.enter frame (p.execute settings call) w = q at hk hdepth ⊢
    cases hk with
    | ok => exact hdepth
    | error => exact hdepth
  · rw [hforever]
    refine ⟨?_, trivial, hw⟩
    rcases Machine.enter_execute_cases p settings' call' frame w with ⟨k, hk⟩ | ⟨-, hforever'⟩
    · -- The other run would have come to its end where this one goes on.
      obtain ⟨g, v, hgoes⟩ := hnever k
      rw [← (hsteps k).1, hgoes] at hk
      cases hk
    · exact hforever'.symm

/-- Where the depth is as it should be, the gauge makes no difference. -/
theorem gauged_eq_inCall {base level limit : Nat} {alarm x y : Run World Value} {w : World}
    (hbase : base < level) (hlimit : level ≤ limit) (hw : w.depth + 1 = level)
    (h : SteadyAt level x y) :
    gauged base level limit alarm x w = World.inCall limit y w ∧
      EndsIn (fun v => v.depth = w.depth) (fun _ => True) (World.inCall limit y w) := by
  have hlt : w.depth < limit := by omega
  obtain ⟨heq, hend⟩ := h { w with depth := w.depth + 1 } hw
  rw [inCall_of_lt hlt, ← heq]
  unfold gauged
  dsimp only
  rw [if_pos ⟨hw, hbase, hlimit⟩]
  generalize x { w with depth := w.depth + 1 } = r at hend
  cases r with
  | ok v after =>
    have hdepth : after.depth = level := hend
    dsimp only
    rw [if_pos hdepth]
    refine ⟨rfl, ?_⟩
    change after.depth - 1 = w.depth
    omega
  | error e after =>
    have hdepth : after.depth = level := hend.2
    dsimp only
    rw [if_pos hdepth]
    refine ⟨rfl, trivial, ?_⟩
    change after.depth - 1 = w.depth
    omega

/-- Whatever a call finds to enter, every other call of the same value finds something to enter. -/
def indifferent : Likeness where
  rel _ _ := True
  bind _ _ := trivial
  act _ := trivial

variable {settings : ExecSettings} {host : Host}

/-- Counting the calls makes no difference, whatever the refusal is and the alarm would do. -/
theorem countedCall_eq (hhost : host.KeepsDepth) (base : Nat) (refusal : Stop)
    (alarm : Run World Value) (fuel active : Nat)
    (hactive : base + active ≤ settings.maxCallDepth) :
    (steadily (base + active)).Callers (countedCall settings host base refusal alarm fuel active)
      (refusingCall settings host refusal fuel) := by
  induction fuel generalizing active with
  | zero => exact fun _ _ w hw => ⟨rfl, trivial, hw⟩
  | succ fuel ih =>
    intro callee args w hw
    rw [refusingCall_succ, countedCall_succ, if_pos hw]
    by_cases hlimit : w.depth = settings.maxCallDepth
    · have hcallers : indifferent.Callers
          (countedCall settings host base refusal alarm fuel (active + 1))
          (refusingCall settings host refusal fuel) := fun _ _ => trivial
      rcases Likeness.bodyOf_cases rfl hcallers (fun _ _ => trivial)
        (fun _ _ _ _ _ _ _ _ _ _ _ _ => trivial) callee args with
        ⟨x, y, hx, hy, -⟩ | ⟨e, -, hx, hy⟩
      · rw [hx, hy]
        dsimp only
        rw [if_pos hlimit, if_neg (by omega)]
        exact ⟨rfl, trivial, hw⟩
      · rw [hx, hy]
        exact ⟨rfl, trivial, hw⟩
    · have hcallers := ih (active + 1) (by omega)
      rcases Likeness.bodyOf_cases rfl hcallers
        (hhost (base + (active + 1)) _ _ hcallers)
        (fun _ _ unit _ _ => steadily_executes (base + (active + 1)) unit.code) callee args with
        ⟨x, y, hx, hy, hbody⟩ | ⟨e, -, hx, hy⟩
      · rw [hx, hy]
        dsimp only
        rw [if_neg hlimit, if_pos (by omega)]
        have hgauge : gauged base (base + (active + 1)) settings.maxCallDepth alarm x w =
            World.inCall settings.maxCallDepth y w ∧ _ :=
          gauged_eq_inCall (by omega) (by omega) (by omega) hbody
        obtain ⟨heq, hend⟩ := hgauge
        rw [heq]
        exact ⟨rfl, hend.mono fun v hv => hv.trans hw⟩
      · rw [hx, hy]
        exact ⟨rfl, trivial, hw⟩

end Steady

section Honest

def NeverExceeds (limit : Nat) {α : Type} (x : Run World α) : Prop :=
  ∀ w v, x w ≠ .error (.raised (.callDepthExceeded limit)) v

/-- Builtins of the host say that the limit is reached only where a call they make does. -/
def Host.Honest (host : Host) : Prop :=
  ∀ limit call, (∀ f args, NeverExceeds limit (call f args)) →
    ∀ name args, NeverExceeds limit (host name call args)

def honestly (limit : Nat) : Likeness where
  rel x _ := NeverExceeds limit x
  bind {_ _ x y f g} h hf := by
    intro w v hbind
    rcases bind_eq_error.mp hbind with hx | ⟨a, u, -, hrest⟩
    · exact h w v hx
    · exact hf a u v hrest
  act h := by
    intro w v
    cases h with
    | look q h =>
      have hfree := h w
      dsimp only
      cases hq : q w with
      | ok a => nofun
      | error e =>
        rw [hq] at hfree
        rintro ⟨⟩
        cases hfree
    | write f slot v => nofun
    | close fn f =>
      obtain ⟨log, hlog⟩ := World.allocClosure_eq fn f w
      rw [hlog]
      nofun
    | emit e => nofun
    | print line => nofun

theorem honestly_executes (limit : Nat) (p : Lowered) : (honestly limit).Executes p := by
  intro settings settings' ht call call' hc frame w v hend
  rcases Machine.enter_execute_cases p settings call frame w with ⟨k, hk⟩ | ⟨-, hforever⟩
  · have hsteps := (honestly limit).ownScript ht hc (Machine.advance_scripted p k {} frame)
    rw [hend] at hk
    generalize hr : Activation.detach frame (Machine.advance p settings call k {}) w = r at hk
    cases hk
    exact hsteps w v hr
  · rw [hforever] at hend
    cases hend

/-- Calls end with the failure only if that is what they are refused with. -/
theorem refusingCall_honest (settings : ExecSettings) {host : Host} (hhost : host.Honest)
    {limit : Nat} {refusal : Stop} (hrefusal : refusal ≠ .raised (.callDepthExceeded limit))
    (fuel : Nat) (callee : Value) (args : Arguments) :
    NeverExceeds limit (refusingCall settings host refusal fuel callee args) := by
  induction fuel generalizing callee args with
  | zero => exact fun _ _ => nofun
  | succ fuel ih =>
    intro w v
    have hcallers : (honestly limit).Callers (refusingCall settings host refusal fuel)
        (refusingCall settings host refusal fuel) := ih
    rw [refusingCall_succ]
    rcases Likeness.bodyOf_cases rfl hcallers (hhost limit _ hcallers)
      (fun _ _ unit _ _ => honestly_executes limit unit.code) callee args with
      ⟨x, _, hx, -, hbody⟩ | ⟨e, he, hx, -⟩
    · rw [hx]
      dsimp only
      split
      · next hlt =>
        rw [inCall_of_lt hlt]
        cases hend : x { w with depth := w.depth + 1 } with
        | ok a after => nofun
        | error e after =>
          rintro ⟨⟩
          exact hbody _ _ hend
      · rintro ⟨⟩
        exact hrefusal rfl
    · rw [hx]
      rintro ⟨⟩
      cases he

end Honest

/-- However a call ends, it ends at the depth it started from. Meanwhile the depth is where it
started plus the number of calls that are active: it is so wherever a call is made, and wherever a
body starts or ends, and it lies above the start and within the limit there. A body is refused
where the depth is at the limit, and only there: for every alarm, counting the calls makes no
difference. If a call ends with the failure that too many calls are active, then the failure names
the limit, and some body was refused, as the run would be another one if refusals were. -/
theorem call_depth_exact (settings : ExecSettings) {host : Host} (hdepth : host.KeepsDepth)
    (hhonest : host.Honest) (fuel : Nat) (callee : Value) (args : Arguments) {w : World}
    (hw : w.depth ≤ settings.maxCallDepth) :
    EndsIn (fun v => v.depth = w.depth) (fun _ => True)
      (applyValue settings host fuel callee args w) ∧
    (∀ alarm, countedCall settings host w.depth
        (.raised (.callDepthExceeded settings.maxCallDepth)) alarm fuel 0 callee args w =
      applyValue settings host fuel callee args w) ∧
    ∀ limit v, applyValue settings host fuel callee args w =
        .error (.raised (.callDepthExceeded limit)) v →
      limit = settings.maxCallDepth ∧
        ∃ refusal, ∀ alarm, countedCall settings host w.depth refusal alarm fuel 0 callee args w ≠
          applyValue settings host fuel callee args w := by
  have hcounted (refusal : Stop) (alarm : Run World Value) :=
    countedCall_eq hdepth w.depth refusal alarm fuel 0 hw callee args w rfl
  have hprogram := refusingCall_eq_applyValue settings host fuel
  refine ⟨?_, fun alarm => ?_, fun limit v hend => ⟨?_, .outOfFuel, fun alarm heq => ?_⟩⟩
  · obtain ⟨heq, hends⟩ := hcounted (.raised (.callDepthExceeded settings.maxCallDepth))
      (throw .outOfFuel)
    rw [← hprogram, ← heq]
    exact hends
  · rw [← hprogram]
    exact (hcounted _ alarm).1
  · by_cases hlimit : settings.maxCallDepth = limit
    · exact hlimit.symm
    · -- Calls that are refused with another limit never end with this one.
      have hrefusal : Stop.raised (.callDepthExceeded settings.maxCallDepth) ≠
          .raised (.callDepthExceeded limit) := by
        simpa using hlimit
      rw [← hprogram] at hend
      exact absurd hend (refusingCall_honest settings hhonest hrefusal fuel callee args w v)
  · have hrefusal : Stop.outOfFuel ≠ .raised (.callDepthExceeded limit) := nofun
    exact refusingCall_honest settings hhonest hrefusal fuel callee args w v
      ((hcounted .outOfFuel alarm).1.symm.trans (heq.trans hend))

theorem Demo.callingHost_keepsDepth : callingHost.KeepsDepth := by
  intro n call call' hcall name args
  cases args with
  | nil => exact fun w hw => ⟨rfl, trivial, hw⟩
  | cons f rest => exact hcall f _

theorem Demo.callingHost_honest : callingHost.Honest := by
  intro limit call hcall name args
  cases args with
  | nil => exact fun w v => nofun
  | cons f rest => exact hcall f _

/-- A function that calls itself without end, below a builtin that calls it, is refused once at the
limit and leaves the depth at zero. -/
theorem again_call_depth :
    ∃ v, applyValue { maxCallDepth := 3 } Demo.callingHost 5 (.builtin (.host "apply"))
        { positional := [.function ⟨0, "again"⟩] } (Demo.selfCalling .interpreted) =
      .error (.raised (.callDepthExceeded 3)) v ∧ v.depth = 0 ∧
        ∃ refusal, ∀ alarm, countedCall { maxCallDepth := 3 } Demo.callingHost 0 refusal alarm 5 0
            (.builtin (.host "apply")) { positional := [.function ⟨0, "again"⟩] }
            (Demo.selfCalling .interpreted) ≠ .error (.raised (.callDepthExceeded 3)) v := by
  have hend : ∃ v, applyValue { maxCallDepth := 3 } Demo.callingHost 5 (.builtin (.host "apply"))
      { positional := [.function ⟨0, "again"⟩] } (Demo.selfCalling .interpreted) =
        .error (.raised (.callDepthExceeded 3)) v := ⟨_, rfl⟩
  obtain ⟨v, hv⟩ := hend
  obtain ⟨hdepth, -, hrefused⟩ := call_depth_exact { maxCallDepth := 3 }
    Demo.callingHost_keepsDepth Demo.callingHost_honest 5 (.builtin (.host "apply"))
    { positional := [.function ⟨0, "again"⟩] } (w := Demo.selfCalling .interpreted) (by decide)
  have hother := (hrefused 3 v hv).2
  rw [hv] at hdepth hother
  exact ⟨v, hv, hdepth.2, hother⟩

end Tiered
