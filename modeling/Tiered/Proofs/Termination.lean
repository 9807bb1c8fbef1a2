import Tiered.Proofs.Halting
import Tiered.Proofs.InternalErrors

/-! Every call comes to an end: calls nest no deeper than the limit on active calls allows, and
either engine ends as soon as the calls it makes do. -/
namespace Tiered

/-- Any definition may be run, interpreted or by a unit that some definition was lowered to. -/
def CodePolicy.lowered : CodePolicy where
  admits _ := True
  runs _ code := ∃ fn, code.Serves fn
  serves _ hs := ⟨_, hs⟩
  shared _ _ _ h := h

/-- With `depth` calls active, fewer than `room` more of them can nest. -/
def roomBelow (limit room depth : Nat) : Prop :=
  limit - depth < room

/-- Builtins of the host come to an end if the calls they make do. Where those calls have one and
the same end in two runs, so have the builtins. -/
def Host.Total (host : Host) (limit : Nat) : Prop :=
  ∀ room call call',
    (∀ f args, Agree (CodePolicy.lowered.At (roomBelow limit room)) (· ≠ .outOfFuel) (call f args)
      (call' f args)) →
    ∀ name args, Agree (CodePolicy.lowered.At (roomBelow limit room)) (· ≠ .outOfFuel)
      (host name call args) (host name call' args)

/-- Runs that come to an end wherever fewer than `room` calls can nest. -/
def ending (limit room : Nat) : Coupling :=
  CodePolicy.lowered.coupling (roomBelow limit room) (· ≠ .outOfFuel) fun _ _ => nofun

theorem ending_lenient (limit room : Nat) : (ending limit room).Lenient :=
  fun _ => ⟨rfl, nofun⟩

/-- Inside a call there is room for one call less. -/
def endingPassage (limit room : Nat) :
    Passage (ending limit (room + 1)) (ending limit room) limit :=
  CodePolicy.lowered.passage _ (fun n h hn => by unfold roomBelow at *; omega)
    (fun n h => by unfold roomBelow at *; omega) (.inl fun _ => nofun)

section Engines

variable {limit room n : Nat} {call call' : Caller} (hc : (ending limit room).Callers call call')
  (settings : ExecSettings)
include hc

theorem Lowered.execute_ends {fn : FunctionDef} {p : Lowered} (hp : fn.lower = .ok p) :
    Coupled (ending limit room).reasons ((ending limit room).Acts n) (p.execute settings call)
      (p.execute settings call') := by
  intro a b hab
  have hhalts : Machine.Halts settings call p {} a := FunctionDef.lower_halts hp a
  obtain ⟨r, hr⟩ := hhalts.finish
  obtain ⟨r', hr', hend⟩ := Machine.finish_coupled (ending_lenient limit room) hc
    (fun _ _ => trivial) (.inl rfl) _ a r hr b hab
  unfold Lowered.execute
  rw [hr, hr']
  exact hend

/-- Either engine ends if the calls it makes do. -/
theorem Callable.run_ends {c : Callable} (hcode : ∃ fn, c.code.Serves fn) :
    Coupled (ending limit room).reasons ((ending limit room).Acts n) (c.run settings call)
      (c.run settings call') := by
  unfold Callable.run
  cases hengine : c.code with
  | interpreted =>
    exact FunctionDef.interpret_coupled _ hc (.inl rfl) (.inl (ending_lenient limit room))
      fun _ _ => trivial
  | specialized unit =>
    rw [hengine] at hcode
    obtain ⟨fn, hlower⟩ := hcode
    exact Lowered.execute_ends hc settings hlower

end Engines

/-- Calls with enough fuel for the calls that can nest end in the same way, and not for lack of
fuel. -/
theorem callers_end {host : Host} {settings : ExecSettings}
    (hhost : host.Total settings.maxCallDepth) (n n' : Nat) :
    (ending settings.maxCallDepth (min n n')).Callers (applyValue settings host n)
      (applyValue settings host n') := by
  induction n generalizing n' with
  | zero =>
    rintro f args v w ⟨-, -, hroom⟩
    simp [roomBelow] at hroom
  | succ n ih =>
    cases n' with
    | zero =>
      rintro f args v w ⟨-, -, hroom⟩
      simp [roomBelow] at hroom
    | succ n' =>
      rw [Nat.succ_min_succ]
      apply (endingPassage settings.maxCallDepth (min n n')).applyValue rfl rfl
      · rintro c _ ⟨rfl, -, hcode⟩ frame -
        exact Coupling.enter _ (Callable.run_ends (ih n') settings hcode)
      · intro name args
        apply coupled_iff_agree.mpr
        exact hhost _ _ _ (fun f args => coupled_iff_agree.mp (ih n' f args)) name args

/-- Every call comes to an end, whatever value is called with whatever arguments, and even if
functions reach themselves through their global slots: it has one result, which any fuel gives that
exceeds the number of calls that can still nest. In particular, on every lowered unit the machine
returns or stops after finitely many steps, from any frame and with any way of making calls. -/
theorem call_terminates (settings : ExecSettings) {host : Host}
    (hhost : host.Total settings.maxCallDepth) (callee : Value) (args : Arguments) {w : World}
    (hw : CodePolicy.lowered.Sound w) :
    (∃ r, EndsIn CodePolicy.lowered.Sound (· ≠ .outOfFuel) r ∧
      ∀ fuel, settings.maxCallDepth - w.depth < fuel →
        applyValue settings host fuel callee args w = r) ∧
    ∀ (fn : FunctionDef) (p : Lowered), fn.lower = .ok p → ∀ settings' call a,
      ∃ limit, (Machine.run settings' call p limit 0 {} a).outcome ≠ .limitReached := by
  constructor
  · have hagree {n n' : Nat} (hn : settings.maxCallDepth - w.depth < min n n') :=
      coupled_iff_agree.mp (callers_end hhost n n' callee args) w ⟨hw, hn⟩
    have hself := hagree (n := settings.maxCallDepth - w.depth + 1) (by rw [Nat.min_self]; omega)
    refine ⟨applyValue settings host (settings.maxCallDepth - w.depth + 1) callee args w, ?_, ?_⟩
    · exact EndsIn.mono (fun _ h => h.1) hself.2
    · intro fuel hfuel
      exact (hagree (Nat.lt_min.mpr ⟨hfuel, Nat.lt_succ_self _⟩)).1
  · intro fn p hp settings' call a
    exact (FunctionDef.lower_halts hp a).run 0

/-- A function that calls itself through its global slot, without end. -/
def Demo.again : FunctionDef :=
  .make 6 "again" [] none [.ret (some (.call (.ident (.globalVar "again" 0)) []))]

def Demo.selfCalling (code : Code) : World where
  heap := #[{
    fn := again
    qualifiedName := "again"
    code := code
    globals := #[some (.function ⟨0, "again"⟩)]
  }]

theorem Demo.callingHost_total (limit : Nat) : callingHost.Total limit := by
  intro room call call' hcall name args
  cases args with
  | nil => exact fun w hw => ⟨rfl, nofun, hw⟩
  | cons f rest => exact hcall f _

theorem Demo.selfCalling_sound {code : Code} (h : code.Serves again) :
    CodePolicy.lowered.Sound (selfCalling code) := by
  constructor
  · intro c hc
    rw [List.mem_singleton.mp (Array.mem_toList_iff.mpr hc)]
    exact ⟨trivial, again, h⟩
  · exact nofun

theorem again_terminates :
    ∃ r, EndsIn CodePolicy.lowered.Sound (· ≠ .outOfFuel) r ∧
      ∀ fuel, 100 < fuel →
        applyValue { maxCallDepth := 100 } Demo.callingHost fuel (.builtin (.host "apply"))
          { positional := [.function ⟨0, "again"⟩] }
          (Demo.selfCalling
            (.ofResult ((Specializer.ofSettings {}).compile Demo.again).result)) = r :=
  have hsound := Demo.selfCalling_sound (Specializer.compile_serves (.ofSettings {}) Demo.again)
  (call_terminates { maxCallDepth := 100 } (Demo.callingHost_total _) _ _ hsound).1

end Tiered
