import Tiered.Exec.Call
import Tiered.Proofs.Coupling

/-! Calls on both sides of a coupling. What relates the worlds inside a call may differ from what
relates them around it. -/
namespace Tiered

section Apply

variable {settings : ExecSettings} {host : Host} {n : Nat} {f : FunctionRef} {args : Arguments}
  {w : World}

theorem applyValue_of_callable {c : Callable} (h : w.callable? f = some c) :
    applyValue settings host (n + 1) (.function f) args w =
      c.call settings (applyValue settings host n) f args w := by
  have hget : (get : Run World World) w = .ok w w := rfl
  simp only [applyValue, bind, EStateM.bind, hget, h]

theorem applyValue_of_not_callable (h : w.callable? f = none) :
    applyValue settings host (n + 1) (.function f) args w =
      Run.raise (.notCallable (Value.function f).typeName) w := by
  have hget : (get : Run World World) w = .ok w w := rfl
  simp only [applyValue, bind, EStateM.bind, hget, h]

end Apply

/-- Calls, of which no more than `limit` may be active, lead from worlds that `outer` relates to
worlds that `inner` relates, and back. Function values at the same place are partners: they have the
same definition, and its arguments can be bound. -/
structure Passage (outer inner : Coupling) (limit : Nat) where
  partners : Callable → Callable → Prop
  fn_eq {c d : Callable} (h : partners c d) : c.fn = d.fn
  binds {c d : Callable} (h : partners c d) :
    inner.Lenient ∨ c.fn.params.length ≤ c.fn.localCount.toNat
  callable {v w : World} (h : outer.rel v w) (f : FunctionRef) :
    Option.Rel partners (v.callable? f) (w.callable? f)
  depth_eq {v w : World} (h : outer.rel v w) : v.depth = w.depth
  enter {v w : World} (h : outer.rel v w) (hd : v.depth < limit) :
    inner.rel { v with depth := v.depth + 1 } { w with depth := w.depth + 1 }
  leave {v w : World} (h : inner.rel v w) : outer.rel v.endCall w.endCall
  reasons {e e' : Stop} (h : inner.reasons e e') : outer.reasons e e'
  print {v w : World} (h : inner.rel v w) (line : String) :
    inner.rel { v with printed := v.printed.push line } { w with printed := w.printed.push line }
  callBuiltin {v w : World} (h : inner.rel v w) (name : String) (argc : Nat) :
    inner.rel (v.emitEvent (.callBuiltin name argc)) (w.emitEvent (.callBuiltin name argc))
  callFunction {v w : World} {c d : Callable} (h : inner.rel v w) (hp : partners c d) :
    inner.rel (v.emitEvent (.callFunction c.qualifiedName c.code.isSpecialized v.depth))
      (w.emitEvent (.callFunction d.qualifiedName d.code.isSpecialized w.depth))

/-- Of a call that ends, its frame is gone and the world remains. -/
theorem SameEnd.enter {α : Type} {reasons : Stop → Stop → Prop}
    {acts : Activation → Activation → Prop} {rel : World → World → Prop}
    (hworld : ∀ {a b}, acts a b → rel a.world b.world) {x y : Run Activation α} {frame : Frame}
    {v w : World} (h : SameEnd reasons acts (x ⟨frame, v⟩) (y ⟨frame, w⟩)) :
    SameEnd reasons rel (Activation.enter frame x v) (Activation.enter frame y w) := by
  unfold Activation.enter
  generalize x ⟨frame, v⟩ = r, y ⟨frame, w⟩ = q at h ⊢
  cases h with
  | ok h => exact .ok (hworld h)
  | error he h => exact .error he (hworld h)

theorem Coupling.enter (C : Coupling) {α : Type} {x y : Run Activation α} {frame : Frame}
    (h : Coupled C.reasons (C.Acts frame.locals.size) x y) :
    Coupled C.reasons C.rel (Activation.enter frame x) (Activation.enter frame y) := by
  intro v w hw
  exact (h ⟨frame, v⟩ ⟨frame, w⟩ ⟨rfl, rfl, hw⟩).enter fun h => h.world

namespace Passage

variable {outer inner : Coupling} {limit : Nat} (P : Passage outer inner limit)
include P

theorem inCall {α : Type} {x y : Run World α} (h : Coupled inner.reasons inner.rel x y) :
    Coupled outer.reasons outer.rel (World.inCall limit x) (World.inCall limit y) := by
  intro v w hw
  unfold World.inCall World.beginCall
  rw [← P.depth_eq hw]
  by_cases hd : v.depth < limit
  · have hin := P.enter hw hd
    rw [← P.depth_eq hw] at hin
    have he := h _ _ hin
    simp only [if_pos hd]
    generalize x { v with depth := v.depth + 1 } = r, y { w with depth := v.depth + 1 } = q at he ⊢
    cases he with
    | ok h => exact .ok (P.leave h)
    | error he h => exact .error (P.reasons he) (P.leave h)
  · simp only [if_neg hd]
    exact .error (outer.failure (by simp)) hw

variable {settings settings' : ExecSettings} (hl : settings.maxCallDepth = limit)
  (hl' : settings'.maxCallDepth = limit) {call call' : Caller}
include hl hl'

theorem function_call {c d : Callable} (hp : P.partners c d)
    (hrun : ∀ frame : Frame, frame.locals.size = c.fn.localCount.toNat →
      Coupled inner.reasons inner.rel (Activation.enter frame (c.run settings call))
        (Activation.enter frame (d.run settings' call'))) (f : FunctionRef) (args : Arguments) :
    Coupled outer.reasons outer.rel (c.call settings call f args)
      (d.call settings' call' f args) := by
  unfold Callable.call
  rw [hl, hl', ← P.fn_eq hp]
  apply P.inCall
  have hbind := c.fn.bind_yields (fun _ he => inner.failure he) f args (P.binds hp)
  cases hframe : c.fn.bind f args with
  | error e =>
    rw [hframe] at hbind
    exact fun _ _ h => .error hbind h
  | ok frame =>
    rw [hframe] at hbind
    intro v w hw
    change SameEnd inner.reasons inner.rel
      (Activation.enter frame (c.run settings call)
        (v.emitEvent (.callFunction c.qualifiedName c.code.isSpecialized v.depth)))
      (Activation.enter frame (d.run settings' call')
        (w.emitEvent (.callFunction d.qualifiedName d.code.isSpecialized w.depth)))
    exact hrun frame hbind _ _ (P.callFunction hw hp)

theorem builtin_call {host : Host}
    (hhost : ∀ name args, Coupled inner.reasons inner.rel (host name call args)
      (host name call' args)) (b : Builtin) (args : Arguments) :
    Coupled outer.reasons outer.rel (b.call settings host call args)
      (b.call settings' host call' args) := by
  have hfails {e : Failure} (he : ∀ c, e ≠ .internal c) := inner.failure he
  unfold Builtin.call
  rw [hl, hl']
  split
  · have hreport : Coupled inner.reasons inner.rel
        (World.emit (.callBuiltin b.name args.positional.length))
        (World.emit (.callBuiltin b.name args.positional.length)) :=
      fun _ _ h => .ok (P.callBuiltin h _ _)
    apply P.inCall
    apply hreport.bind
    intro _
    cases b with
    | len => exact .ofExcept (Builtin.length_yields (fun _ => hfails) _)
    | range => exact .ofExcept (Builtin.rangeList_yields (fun _ => hfails) _)
    | str =>
      exact (Coupled.ofExcept (Builtin.oneArg_yields (fun _ => hfails) _ _)).bind fun v => .pure _
    | typeOf =>
      exact (Coupled.ofExcept (Builtin.oneArg_yields (fun _ => hfails) _ _)).bind fun v => .pure _
    | print =>
      have hprint : Coupled inner.reasons inner.rel
          (World.print (" ".intercalate (args.positional.map Value.display)))
          (World.print (" ".intercalate (args.positional.map Value.display))) :=
        fun _ _ h => .ok (P.print h _)
      exact hprint.bind fun _ => .pure _
    | host name => exact hhost name args.positional
  · exact .raise (outer.failure (by simp))

/-- One call, given that the code of partners and the builtins of the host run in the same way
inside it. -/
theorem applyValue {host : Host} {n n' : Nat}
    (hrun : ∀ c d, P.partners c d → ∀ frame : Frame,
      frame.locals.size = c.fn.localCount.toNat → Coupled inner.reasons inner.rel
        (Activation.enter frame (c.run settings (Tiered.applyValue settings host n)))
        (Activation.enter frame (d.run settings' (Tiered.applyValue settings' host n'))))
    (hhost : ∀ name args, Coupled inner.reasons inner.rel
      (host name (Tiered.applyValue settings host n) args)
      (host name (Tiered.applyValue settings' host n') args)) :
    outer.Callers (Tiered.applyValue settings host (n + 1))
      (Tiered.applyValue settings' host (n' + 1)) := by
  intro callee args
  cases callee with
  | function f =>
    intro v w hw
    have hpair := P.callable hw f
    generalize hx : v.callable? f = x, hy : w.callable? f = y at hpair
    cases hpair with
    | some hp =>
      rw [applyValue_of_callable hx, applyValue_of_callable hy]
      exact P.function_call hl hl' hp (hrun _ _ hp) f args v w hw
    | none =>
      rw [applyValue_of_not_callable hx, applyValue_of_not_callable hy]
      exact Coupled.raise (outer.failure (by simp)) v w hw
  | builtin b => exact P.builtin_call hl hl' hhost b args
  | none | bool _ | int _ | str _ | list _ => exact .raise (outer.failure (by simp))

end Passage

end Tiered
