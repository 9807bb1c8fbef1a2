import Tiered.Proofs.Alignment
import Tiered.Proofs.CallCoupling

/-! Calls in two aligned worlds: whatever engines run the function values on either side, as long as
they agree function by function, all calls end alike. -/
namespace Tiered

/-- An alignment that calls keep too. Function values at the same place are partners: they have the
same definition. -/
structure CallAlignment extends Alignment where
  partners : Callable → Callable → Prop
  fn_eq {c d : Callable} (h : partners c d) : c.fn = d.fn
  callable {v w : World} (h : rel v w) (f : FunctionRef) :
    Option.Rel partners (v.callable? f) (w.callable? f)
  depth_eq {v w : World} (h : rel v w) : v.depth = w.depth
  setDepth {v w : World} (h : rel v w) (n : Nat) :
    rel { v with depth := n } { w with depth := n }
  print {v w : World} (h : rel v w) (line : String) :
    rel { v with printed := v.printed.push line } { w with printed := w.printed.push line }
  callBuiltin {v w : World} (h : rel v w) (name : String) (argc : Nat) :
    rel (v.emitEvent (.callBuiltin name argc)) (w.emitEvent (.callBuiltin name argc))
  callFunction {v w : World} {c d : Callable} (h : rel v w) (hp : partners c d) (n : Nat) :
    rel (v.emitEvent (.callFunction c.qualifiedName c.code.isSpecialized n))
      (w.emitEvent (.callFunction d.qualifiedName d.code.isSpecialized n))

/-- The builtins of a host keep worlds aligned, given calls back that do. -/
def Host.Respects (host : Host) (A : Alignment) : Prop :=
  ∀ call call', A.Callers call call' →
    ∀ name args, Alike A.rel (host name call args) (host name call' args)

namespace CallAlignment

variable (A : CallAlignment)

def Engines : Prop :=
  ∀ c d, A.partners c d → ∀ call call', A.Callers call call' →
    ∀ settings settings', Alike A.Acts (c.run settings call) (d.run settings' call')

def passage (limit : Nat) : Passage A.coupling A.coupling limit where
  partners := A.partners
  fn_eq h := A.fn_eq h
  binds _ := .inl A.lenient
  callable h f := A.callable h f
  depth_eq h := A.depth_eq h
  enter {v w} h _ := by
    rw [← A.depth_eq h]
    exact A.setDepth h _
  leave {v w} h := by
    unfold World.endCall
    rw [← A.depth_eq h]
    exact A.setDepth h _
  reasons h := h
  print h line := A.print h line
  callBuiltin h name argc := A.callBuiltin h name argc
  callFunction {v w c d} h hp := by
    rw [← A.depth_eq h]
    exact A.callFunction h hp _

theorem applyValue (hengines : A.Engines) {host : Host} (hhost : host.Respects A.toAlignment)
    {settings settings' : ExecSettings} (hl : settings.maxCallDepth = settings'.maxCallDepth)
    (n : Nat) :
    A.Callers (Tiered.applyValue settings host n) (Tiered.applyValue settings' host n) := by
  induction n with
  | zero =>
    intro f args v w hw
    exact .error rfl hw
  | succ n ih =>
    apply (A.passage settings.maxCallDepth).applyValue rfl hl.symm
    · intro c d hp frame _ v w hw
      have hrun := hengines c d hp _ _ ih settings settings' ⟨frame, v⟩ ⟨frame, w⟩ ⟨rfl, hw⟩
      exact hrun.enter fun h => h.2
    · exact hhost _ _ ih

end CallAlignment

end Tiered
