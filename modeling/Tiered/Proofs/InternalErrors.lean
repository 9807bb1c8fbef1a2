import Tiered.Proofs.EngineTransparency
import Tiered.Proofs.LoweredVerification
import Tiered.Proofs.MachineCoupling
import Tiered.Proofs.MachineSafety

/-! Programs whose definitions are well formed never fail from an internal error, whichever engine
runs them. -/
namespace Tiered

/-- A definition with a local slot for each parameter and each local identifier of its body, in which
values are bound to nothing but identifiers that are not universal, and lists of them. So are the
definitions nested in it. -/
inductive FunctionDef.WellFormed : FunctionDef → Prop
  | mk {fn : FunctionDef} (params : fn.params.length ≤ fn.localCount.toNat)
      (slots : ∀ name slot, .localVar name slot ∈ fn.idents → slot < fn.localCount)
      (targets : ∀ t ∈ fn.targets, t.isTarget) (nested : ∀ g ∈ fn.defs, g.WellFormed) :
      fn.WellFormed

/-- All but the nested definitions can be checked by running through the body. -/
theorem FunctionDef.WellFormed.of_checks {fn : FunctionDef}
    (params : fn.params.length ≤ fn.localCount.toNat)
    (slots : fn.idents.all fun x => x.localSlot?.all (· < fn.localCount))
    (targets : fn.targets.all Expr.isTarget) (nested : ∀ g ∈ fn.defs, g.WellFormed) :
    fn.WellFormed :=
  .mk params (fun _ _ hx => of_decide_eq_true (List.all_eq_true.mp slots _ hx))
    (List.all_eq_true.mp targets) nested

/-- The definitions of a program, each well formed. Those nested in one of them are among them, and
no two share an identity. -/
structure Program where
  mem : FunctionDef → Prop
  nested {fn : FunctionDef} (h : mem fn) : ∀ g ∈ fn.defs, mem g
  unique {f g : FunctionDef} (hf : mem f) (hg : mem g) (h : f.id = g.id) : f = g
  wellFormed {fn : FunctionDef} (h : mem fn) : fn.WellFormed

/-- Function values run the definitions of the program, interpreted or lowered. -/
def Program.policy (P : Program) : CodePolicy where
  admits := P.mem
  runs fn code := code.Serves fn
  serves _ hs := hs
  shared hf hg hid h := P.unique hf hg hid ▸ h

def Stop.NotInternal (reason : Stop) : Prop :=
  ∀ e, reason ≠ .raised (.internal e)

namespace CodePolicy

variable (P : CodePolicy)

theorem at_true : P.At (fun _ => True) = P.Sound := by
  funext w
  simp [At]

def safely : Coupling :=
  P.coupling (fun _ => True) Stop.NotInternal fun _ he c h => he c (Stop.raised.inj h)

def anyhow : Coupling :=
  P.coupling (fun _ => True) (fun _ => True) fun _ _ => trivial

theorem coupled_safely_iff {α : Type} {x : Run World α} :
    Coupled P.safely.reasons P.safely.rel x x ↔ Keeps P.Sound Stop.NotInternal x := by
  rw [← at_true]
  exact coupled_iff_keeps

variable {P}

theorem callers_anyhow {call : Caller} (hc : P.safely.Callers call call) :
    P.anyhow.Callers call call := by
  intro f args v w h
  exact (hc f args v w h).mono (fun he => ⟨he.1, trivial⟩) fun h => h

theorem callers_ne_internal {call : Caller} (hc : P.safely.Callers call call) {f : Value}
    {args : Arguments} {v w : World} (hv : P.Sound v) {e : InternalError} :
    call f args v ≠ .error (.raised (.internal e)) w := by
  intro h
  have hend := hc f args v v ⟨rfl, hv, trivial⟩
  rw [h] at hend
  cases hend with
  | error he _ => exact he.2 e rfl

section Machine

variable {p : Lowered} {is : List Instr} {depthAt : Nat → Option Depth} (ht : p.Typed is depthAt)
  (hr : ∀ i ∈ is, p.Resolves i) (hp : ∀ g ∈ p.functions.entries, P.admits g) {n : Nat}
  (hslots : p.unit.localCount.toNat ≤ n) {call : Caller} (hc : P.safely.Callers call call)
  (settings : ExecSettings)
include ht hr hp hslots hc

/-- An internal error of a step would be that of a call it makes, and calls have none. -/
theorem step_safely {m : Machine} (hm : m.AtDepth is depthAt) {a : Activation}
    (ha : P.safely.Acts n a a) :
    SameEnd P.safely.reasons (P.safely.Acts n) (m.step settings call p a)
        (m.step settings call p a) ∧
      ∀ m' b, m.step settings call p a = .ok (.next m') b → m'.AtDepth is depthAt := by
  have hsound : P.Sound (m.announced settings p a).world := by
    unfold Machine.announced
    split
    · exact ⟨ha.world.2.1.heap, ha.world.2.1.specializer⟩
    · exact ha.world.2.1
  have hsafe := Machine.step_safe ht hr hm settings call (ha.slots ▸ hslots)
  have hany : P.anyhow.Lenient := fun _ => ⟨rfl, trivial⟩
  have hkeeps : SameEnd _ (P.anyhow.Acts n) (m.step settings call p a) (m.step settings call p a) :=
    Machine.step_coupled hany (callers_anyhow hc) hp (.inl rfl) m a a ⟨rfl, ha.slots, ha.world⟩
  unfold Safe at hsafe
  generalize m.step settings call p a = r at hkeeps hsafe ⊢
  cases hkeeps with
  | ok h =>
    refine ⟨.ok ⟨h.frame, h.slots, h.world⟩, ?_⟩
    intro m' b heq
    cases heq
    exact hsafe.2 m' rfl
  | error he h =>
    refine ⟨.error ⟨rfl, ?_⟩ ⟨h.frame, h.slots, h.world⟩, ?_⟩
    · rintro e rfl
      obtain ⟨k, callee, args, -, hcall⟩ := hsafe e rfl
      exact callers_ne_internal hc hsound hcall
    · intro m' b heq
      cases heq

theorem finish_safely (m : Machine) (a : Activation) (r : EStateM.Result Stop Activation Value)
    (hfinish : m.finish settings call p a = some r) (hm : m.AtDepth is depthAt)
    (ha : P.safely.Acts n a a) : SameEnd P.safely.reasons (P.safely.Acts n) r r := by
  -- Induction on the run: every step leads to an instruction at the depths that belong there.
  refine Machine.finish.partial_correctness settings call p
    (fun m a r => m.AtDepth is depthAt → P.safely.Acts n a a →
      SameEnd P.safely.reasons (P.safely.Acts n) r r) (fun rest ih m a r hrest hm ha => ?_)
    m a r hfinish hm ha
  obtain ⟨hend, hnext⟩ := step_safely ht hr hp hslots hc settings hm ha
  generalize m.step settings call p a = x at hrest hend hnext
  cases hend with
  | @ok t b _ h =>
    cases t with
    | next m' => exact ih m' b r hrest (hnext m' b rfl) h
    | done v =>
      obtain rfl := Option.some.inj hrest
      exact .ok h
  | error he h =>
    obtain rfl := Option.some.inj hrest
    exact .error he h

theorem execute_safely :
    Coupled P.safely.reasons (P.safely.Acts n) (p.execute settings call)
      (p.execute settings call) := by
  rintro ⟨frame, v⟩ ⟨_, _⟩ ⟨rfl, hn, rfl, hv⟩
  have ha : P.safely.Acts n ⟨frame, v⟩ ⟨frame, v⟩ := ⟨rfl, hn, rfl, hv⟩
  unfold Lowered.execute
  cases hfinish : Machine.finish settings call p {} ⟨frame, v⟩ with
  | some r =>
    have hstart : Machine.AtDepth is depthAt {} := Lowered.Visits.start.atDepth ht hr
    exact finish_safely ht hr hp hslots hc settings _ _ r hfinish hstart ha
  | none => exact .error ⟨rfl, nofun⟩ ha

end Machine

end CodePolicy

namespace Program

variable (P : Program)

/-- Function values of a program run without internal errors, whichever engine they run in. -/
theorem run_safely {call : Caller} (hc : P.policy.safely.Callers call call)
    (settings : ExecSettings) {c : Callable} (hmem : P.mem c.fn) (hcode : c.code.Serves c.fn)
    {n : Nat} (hn : n = c.fn.localCount.toNat) :
    Coupled P.policy.safely.reasons (P.policy.safely.Acts n) (c.run settings call)
      (c.run settings call) := by
  obtain ⟨-, hslots, htargets, -⟩ := P.wellFormed hmem
  unfold Callable.run
  cases hengine : c.code with
  | interpreted =>
    have hallows : P.policy.safely.Allows n c.fn.idents c.fn.targets := by
      refine .inr ⟨fun name slot hx => ?_, htargets⟩
      rw [hn]
      exact UInt16.lt_iff_toNat_lt.mp (hslots name slot hx)
    exact FunctionDef.interpret_coupled _ hc (.inl rfl) hallows (P.nested hmem)
  | specialized unit =>
    rw [hengine] at hcode
    obtain ⟨is, hr⟩ := FunctionDef.lower_renders hcode
    obtain ⟨htyped, hresolves⟩ := hr.typed_resolves hslots
    have hadmits : ∀ g ∈ unit.code.functions.entries, P.mem g :=
      fun g hg => P.nested hmem g (hr.table g hg)
    have hcount : unit.code.unit.localCount.toNat ≤ n := by
      rw [hr.localCount]
      exact Nat.le_of_eq hn.symm
    exact CodePolicy.execute_safely htyped hresolves hadmits hcount hc settings

/-- Arguments find their slots in every call. -/
def safePassage (limit : Nat) : Passage P.policy.safely P.policy.safely limit :=
  P.policy.passage _ (fun _ _ _ => trivial) (fun _ _ => trivial) <| .inr fun fn hmem => by
    obtain ⟨hparams, -⟩ := P.wellFormed hmem
    exact hparams

/-- Calls keep function values to the definitions of the program, and never fail from an internal
error. -/
theorem callers_safely {host : Host}
    (hhost : ∀ call, (∀ f args, Keeps P.policy.Sound Stop.NotInternal (call f args)) →
      ∀ name args, Keeps P.policy.Sound Stop.NotInternal (host name call args))
    (settings : ExecSettings) (n : Nat) :
    P.policy.safely.Callers (applyValue settings host n) (applyValue settings host n) := by
  induction n with
  | zero =>
    intro f args v w h
    exact .error ⟨rfl, nofun⟩ h
  | succ n ih =>
    apply (P.safePassage settings.maxCallDepth).applyValue rfl rfl
    · rintro c _ ⟨rfl, hmem, hcode⟩ frame hsize
      exact Coupling.enter _ (P.run_safely ih settings hmem hcode hsize)
    · intro name args
      apply P.policy.coupled_safely_iff.mpr
      exact hhost _ (fun f args => P.policy.coupled_safely_iff.mp (ih f args)) name args

end Program

/-- In a program whose definitions are well formed, no call of any value ever fails from an internal
error: neither the interpreter nor the machine comes upon one, as long as the builtins of the host do
not fail from one themselves. Every function value stays one of the program. -/
theorem wellFormed_never_internal (P : Program) {host : Host}
    (hhost : ∀ call, (∀ f args, Keeps P.policy.Sound Stop.NotInternal (call f args)) →
      ∀ name args, Keeps P.policy.Sound Stop.NotInternal (host name call args))
    (settings : ExecSettings) (n : Nat) (callee : Value) (args : Arguments) {w : World}
    (hw : P.policy.Sound w) :
    EndsIn P.policy.Sound Stop.NotInternal (applyValue settings host n callee args w) :=
  P.policy.coupled_safely_iff.mp (P.callers_safely hhost settings n callee args) w hw

def Demo.program : Program where
  mem := definitions.mem
  nested := definitions.nested
  unique := definitions.unique
  wellFormed := by
    have hone : one.WellFormed := .of_checks (by decide) (by decide) (by decide) nofun
    rintro fn (rfl | rfl)
    · refine .of_checks (by decide) (by decide) (by decide) fun g hg => ?_
      rw [List.mem_singleton.mp hg]
      exact hone
    · exact hone

/-- A host whose builtins call their first argument with the others. -/
def Demo.callingHost : Host := fun name call args =>
  match args with
  | f :: rest => call f { positional := rest }
  | [] => .raise (.undefinedName name)

theorem makeOne_never_internal :
    EndsIn Demo.program.policy.Sound Stop.NotInternal
      (applyValue { trace := true } Demo.callingHost 5 (.builtin (.host "apply"))
        { positional := [.function ⟨0, "make_one"⟩] }
        (Demo.start (.ofResult ((Specializer.ofSettings {}).compile Demo.makeOne).result)
          (some (.ofSettings {})))) := by
  apply wellFormed_never_internal Demo.program
  · intro call hcall name args
    cases args with
    | nil => exact fun w hw => ⟨nofun, hw⟩
    | cons f rest => exact hcall f _
  · constructor
    · intro c hc
      rw [List.mem_singleton.mp (Array.mem_toList_iff.mpr hc)]
      exact ⟨.inl rfl, Specializer.compile_serves _ _⟩
    · rintro s ⟨⟩ entry ⟨⟩

end Tiered
