import Tiered.Proofs.Likeness
import Tiered.Proofs.Termination

/-! The limit on the depth of calls only cuts runs off. With a higher limit a run is the same, or it
goes on where it was cut off. -/
namespace Tiered

/-- A world that a run may come to from `w`: function values still run lowered code, and no printed
line is taken back. -/
structure World.After (w v : World) : Prop where
  sound : CodePolicy.lowered.Sound v
  printed : w.printed.toList <+: v.printed.toList

theorem World.After.refl {w : World} (h : CodePolicy.lowered.Sound w) : w.After w :=
  ⟨h, List.prefix_refl _⟩

theorem World.After.trans {u v w : World} (h : u.After v) (h' : v.After w) : u.After w :=
  ⟨h'.sound, h.printed.trans h'.printed⟩

def Progresses {α : Type} (x : Run World α) : Prop :=
  ∀ w, CodePolicy.lowered.Sound w → EndsIn w.After (fun _ => True) (x w)

theorem Action.progresses {α : Type} {x : Run World α} (h : Action x) : Progresses x := by
  intro w hw
  cases h with
  | look q h =>
    dsimp only
    cases q w with
    | ok a => exact .refl hw
    | error e => exact ⟨trivial, .refl hw⟩
  | write f slot v => exact ⟨hw.writeGlobal f slot v, List.prefix_refl _⟩
  | close fn f =>
    obtain ⟨g, v, hv, hsound, -⟩ := hw.allocClosure trivial f
    obtain ⟨log, hlog⟩ := World.allocClosure_eq fn f w
    rw [hlog] at hv ⊢
    cases hv
    exact ⟨hsound, List.prefix_refl _⟩
  | emit e => exact ⟨⟨hw.heap, hw.specializer⟩, List.prefix_refl _⟩
  | print line =>
    refine ⟨⟨hw.heap, hw.specializer⟩, ?_⟩
    change w.printed.toList <+: (w.printed.push line).toList
    rw [Array.toList_push]
    exact List.prefix_append _ _

section Chain

variable {α β : Type}

theorem Progresses.bind {x : Run World α} {f : α → Run World β} (hx : Progresses x)
    (hf : ∀ a, Progresses (f a)) : Progresses (x >>= f) := by
  intro w hw
  have hend := hx w hw
  change EndsIn w.After _ (EStateM.bind x f w)
  unfold EStateM.bind
  cases hxw : x w with
  | ok a v =>
    rw [hxw] at hend
    have hv : w.After v := hend
    exact (hf a v hv.sound).mono fun _ hu => hv.trans hu
  | error e v =>
    rw [hxw] at hend
    exact hend

/-- The first run is the second one, or the second one cut off by `limit`: the lines that it has
printed are the first ones of the other. -/
def CutFrom (limit : Nat) (r q : EStateM.Result Stop World α) : Prop :=
  r = q ∨ ∃ v, r = .error (.raised (.callDepthExceeded limit)) v ∧
    EndsIn (fun u => v.printed.toList <+: u.printed.toList) (fun _ => True) q

theorem CutFrom.bind {limit : Nat} {x y : Run World α} {f g : α → Run World β} {w : World}
    (hy : EndsIn w.After (fun _ => True) (y w)) (hxy : CutFrom limit (x w) (y w))
    (hg : ∀ a, Progresses (g a))
    (hfg : ∀ a v, CodePolicy.lowered.Sound v → CutFrom limit (f a v) (g a v)) :
    CutFrom limit ((x >>= f) w) ((y >>= g) w) := by
  change CutFrom limit (EStateM.bind x f w) (EStateM.bind y g w)
  unfold EStateM.bind
  cases hyw : y w with
  | ok a u =>
    rw [hyw] at hy hxy
    have hu : w.After u := hy
    rcases hxy with hsame | ⟨v, hcut, hprinted⟩
    · rw [hsame]
      exact hfg a u hu.sound
    · rw [hcut]
      have hfirst : v.printed.toList <+: u.printed.toList := hprinted
      exact .inr ⟨v, rfl, (hg a u hu.sound).mono fun _ h => hfirst.trans h.printed⟩
  | error e u =>
    rw [hyw] at hxy
    rcases hxy with hsame | ⟨v, hcut, hprinted⟩
    · rw [hsame]
      exact .inl rfl
    · rw [hcut]
      exact .inr ⟨v, rfl, hprinted⟩

end Chain

def cutting (limit : Nat) : Likeness where
  rel x y := ∀ w, CodePolicy.lowered.Sound w →
    EndsIn w.After (fun _ => True) (y w) ∧ CutFrom limit (x w) (y w)
  bind h hf w hw := by
    have hg := fun a v hv => (hf a v hv).1
    exact ⟨Progresses.bind (fun v hv => (h v hv).1) hg w hw,
      .bind (h w hw).1 (h w hw).2 hg fun a v hv => (hf a v hv).2⟩
  act h w hw := ⟨h.progresses w hw, .inl rfl⟩

/-- On lowered code the machine comes to an end, so that there is one to be cut off from. -/
theorem cutting_executes (limit : Nat) {fn : FunctionDef} {p : Lowered} (hp : fn.lower = .ok p) :
    (cutting limit).Executes p := by
  intro settings settings' ht call call' hc frame w hw
  obtain ⟨k, hk⟩ : ∃ k, Machine.Shows
      (Activation.detach frame (Machine.advance p settings' call' k {}) w)
      (Activation.enter frame (p.execute settings' call') w) := by
    have hhalts : Machine.Halts settings' call' p {} ⟨frame, w⟩ := FunctionDef.lower_halts hp _
    obtain ⟨r, hr⟩ := hhalts.finish
    exact Machine.enter_execute_of_finish hr
  have hsteps := (cutting limit).ownScript ht hc (Machine.advance_scripted p k {} frame) w hw
  obtain ⟨hafter, hcut⟩ := hsteps
  generalize Activation.detach frame (Machine.advance p settings' call' k {}) w = r,
    Activation.enter frame (p.execute settings' call') w = q at hk hafter hcut ⊢
  constructor
  · cases hk with
    | ok => exact hafter
    | error => exact hafter
  · rcases hcut with hsame | ⟨v, hcut, hprinted⟩
    · rw [← hsame] at hk
      exact .inl (Machine.enter_execute_eq hk)
    · have hshows := Machine.Shows.error (e := .raised (.callDepthExceeded limit)) (w := v)
      rw [← hcut] at hshows
      refine .inr ⟨v, Machine.enter_execute_eq hshows, ?_⟩
      cases hk with
      | ok => exact hprinted
      | error => exact hprinted

/-- The end of a call takes back no line. -/
theorem EndsIn.released {α : Type} {inv : World → Prop} {r : EStateM.Result Stop World α}
    (hinv : ∀ v, inv v → inv v.endCall) (h : EndsIn inv (fun _ => True) r) :
    EndsIn inv (fun _ => True) (released r) := by
  cases r with
  | ok a v => exact hinv v h
  | error e v => exact ⟨trivial, hinv v h.2⟩

theorem CutFrom.released {limit : Nat} {α : Type} {r q : EStateM.Result Stop World α}
    (h : CutFrom limit r q) : CutFrom limit (released r) (released q) := by
  rcases h with rfl | ⟨v, rfl, hprinted⟩
  · exact .inl rfl
  · exact .inr ⟨v.endCall, rfl, hprinted.released fun _ h => h⟩

/-- Under the lower limit a call is refused where the higher one may let it in. -/
theorem cutting_inCall {limit limit' : Nat} (hle : limit ≤ limit') {x y : Run World Value}
    (h : (cutting limit).rel x y) :
    (cutting limit).rel (World.inCall limit x) (World.inCall limit' y) := by
  intro w hw
  have hinside : CodePolicy.lowered.Sound { w with depth := w.depth + 1 } :=
    ⟨hw.heap, hw.specializer⟩
  obtain ⟨hafter, hcut⟩ := h _ hinside
  have hright : EndsIn w.After (fun _ => True) (World.inCall limit' y w) := by
    by_cases hlimit : w.depth < limit'
    · rw [inCall_of_lt hlimit]
      have hfrom : EndsIn w.After (fun _ => True) (y { w with depth := w.depth + 1 }) :=
        hafter.mono fun _ hv => ⟨hv.sound, hv.printed⟩
      exact hfrom.released fun v hv => ⟨⟨hv.sound.heap, hv.sound.specializer⟩, hv.printed⟩
    · rw [inCall_of_le (Nat.not_lt.mp hlimit)]
      exact ⟨trivial, .refl hw⟩
  refine ⟨hright, ?_⟩
  by_cases hlimit : w.depth < limit
  · rw [inCall_of_lt hlimit, inCall_of_lt (Nat.lt_of_lt_of_le hlimit hle)]
    exact hcut.released
  · rw [inCall_of_le (Nat.not_lt.mp hlimit)]
    exact .inr ⟨w, rfl, hright.mono fun _ hv => hv.printed⟩

/-- Builtins of the host do nothing but make calls, whose failures end them too, and things that
take back no printed line and leave code lowered. -/
def Host.Plain (host : Host) : Prop :=
  ∀ name args, Scripted (fun _ x => Progresses x) fun _ call => host name call args

theorem callers_cut {host : Host} (hhost : host.Plain) {settings settings' : ExecSettings}
    (ht : settings.trace = settings'.trace) (hle : settings.maxCallDepth ≤ settings'.maxCallDepth)
    (fuel : Nat) : (cutting settings.maxCallDepth).Callers (applyValue settings host fuel)
      (applyValue settings' host fuel) := by
  induction fuel with
  | zero => exact fun _ _ w hw => ⟨⟨trivial, .refl hw⟩, .inl rfl⟩
  | succ fuel ih =>
    intro callee args w hw
    have hown : ∀ α (x : Run World α), Progresses x → (cutting settings.maxCallDepth).rel x x :=
      fun _ _ h w hw => ⟨h w hw, .inl rfl⟩
    have hcalls (name : String) (args : List Value) :=
      Likeness.scripted hown ht ih (hhost name args)
    have hunits (f : FunctionRef) (c : Callable) (unit : VerifiedUnit)
        (hf : w.callable? f = some c) (hcode : c.code = .specialized unit) :
        (cutting settings.maxCallDepth).Executes unit.code := by
      obtain ⟨-, fn, hserves⟩ := hw.of_callable hf
      rw [hcode] at hserves
      exact cutting_executes _ hserves
    rw [applyValue_eq_bodyOf, applyValue_eq_bodyOf]
    rcases Likeness.bodyOf_cases ht ih hcalls hunits callee args with
      ⟨x, y, hx, hy, hbody⟩ | ⟨e, -, hx, hy⟩
    · rw [hx, hy]
      exact cutting_inCall hle hbody w hw
    · rw [hx, hy]
      exact ⟨⟨trivial, .refl hw⟩, .inl rfl⟩

/-- A run under the lower of two limits is the run under the higher one, with the same result and
the same world, or it ends because that many calls are active. Whenever it ends with too many calls,
the lines that it has printed are the first ones of those printed under the higher limit. -/
theorem depth_limit_only_cuts (settings : ExecSettings) {limit : Nat}
    (hlimit : settings.maxCallDepth ≤ limit) {host : Host} (hhost : host.Plain) (fuel : Nat)
    (callee : Value) (args : Arguments) {w : World} (hw : CodePolicy.lowered.Sound w) :
    (applyValue settings host fuel callee args w =
        applyValue { settings with maxCallDepth := limit } host fuel callee args w ∨
      ∃ v, applyValue settings host fuel callee args w =
        .error (.raised (.callDepthExceeded settings.maxCallDepth)) v) ∧
    ∀ n v, applyValue settings host fuel callee args w =
        .error (.raised (.callDepthExceeded n)) v →
      EndsIn (fun u => v.printed.toList <+: u.printed.toList) (fun _ => True)
        (applyValue { settings with maxCallDepth := limit } host fuel callee args w) := by
  have htrace : settings.trace = { settings with maxCallDepth := limit : ExecSettings }.trace := rfl
  have hcut := (callers_cut hhost htrace hlimit fuel callee args w hw).2
  constructor
  · rcases hcut with hsame | ⟨v, hcut, -⟩
    · exact .inl hsame
    · exact .inr ⟨v, hcut⟩
  · intro n v hend
    rcases hcut with hsame | ⟨u, hcut, hprinted⟩
    · rw [← hsame, hend]
      exact ⟨trivial, List.prefix_refl _⟩
    · rw [hend] at hcut
      cases hcut
      exact hprinted

/-- Prints a line and calls itself through its global slots, without end. -/
def Demo.chatter : FunctionDef :=
  .make 8 "chatter" [] none
    [.eval (.call (.ident (.globalVar "say" 1)) [.positional (.str "again")]),
      .ret (some (.call (.ident (.globalVar "chatter" 0)) []))]

/-- One function value, whose global slots hold itself and a builtin. -/
def Demo.chattering : World where
  heap := #[{
    fn := chatter
    qualifiedName := "chatter"
    code := .interpreted
    globals := #[some (.function ⟨0, "chatter"⟩), some (.builtin .print)]
  }]

theorem Demo.chattering_sound : CodePolicy.lowered.Sound chattering := by
  constructor
  · intro c hc
    rw [List.mem_singleton.mp (Array.mem_toList_iff.mpr hc)]
    exact ⟨trivial, chatter, trivial⟩
  · exact nofun

theorem Demo.callingHost_plain : callingHost.Plain := by
  intro name args
  cases args with
  | nil => exact .act fun w hw => ⟨trivial, .refl hw⟩
  | cons f rest => exact .call f { positional := rest }

def Demo.chatterUnder (limit : Nat) : EStateM.Result Stop World Value :=
  applyValue { maxCallDepth := limit } callingHost 8 (.builtin (.host "apply"))
    { positional := [.function ⟨0, "chatter"⟩] } chattering

/-- The run was refused a call by `limit` and has printed so many lines. -/
def Demo.refusedAfter (limit lines : Nat) : EStateM.Result Stop World Value → Bool
  | .error (.raised (.callDepthExceeded n)) v => n == limit && v.printed.size == lines
  | _ => false

theorem Demo.exists_of_refusedAfter {limit lines : Nat} {r : EStateM.Result Stop World Value}
    (h : refusedAfter limit lines r) :
    ∃ v, r = .error (.raised (.callDepthExceeded limit)) v ∧ v.printed.size = lines := by
  unfold refusedAfter at h
  split at h
  · obtain ⟨hlimit, hlines⟩ := Bool.and_eq_true_iff.mp h
    exact ⟨_, by rw [beq_iff_eq.mp hlimit], beq_iff_eq.mp hlines⟩
  · cases h

/-- Three active calls let one line through, five of them three lines. -/
theorem chatter_cut_off : ∃ v u,
    Demo.chatterUnder 3 = .error (.raised (.callDepthExceeded 3)) v ∧ v.printed.size = 1 ∧
      Demo.chatterUnder 5 = .error (.raised (.callDepthExceeded 5)) u ∧ u.printed.size = 3 ∧
        v.printed.toList <+: u.printed.toList := by
  have hshort : Demo.refusedAfter 3 1 (Demo.chatterUnder 3) := by decide +kernel
  have hlong : Demo.refusedAfter 5 3 (Demo.chatterUnder 5) := by decide +kernel
  obtain ⟨v, hv, hlines⟩ := Demo.exists_of_refusedAfter hshort
  obtain ⟨u, hu, hlines'⟩ := Demo.exists_of_refusedAfter hlong
  refine ⟨v, u, hv, hlines, hu, hlines', ?_⟩
  unfold Demo.chatterUnder at hv hu
  obtain ⟨-, hfirst⟩ := depth_limit_only_cuts { maxCallDepth := 3 } (show 3 ≤ 5 by decide)
    Demo.callingHost_plain 8 (.builtin (.host "apply"))
    { positional := [.function ⟨0, "chatter"⟩] } Demo.chattering_sound
  rw [hu] at hfirst
  exact (hfirst 3 v hv).2

end Tiered
