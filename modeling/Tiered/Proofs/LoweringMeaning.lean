import Tiered.Demo
import Tiered.Proofs.CallAlignment
import Tiered.Proofs.Simulation

/-! Lowering keeps the meaning of a function: its code on the machine ends as its body under the
interpreter does, and leaves the same behind. -/
namespace Tiered

namespace World

/-- A world without what engines report of their own progress. -/
def trim (w : World) : World :=
  { w with log := w.log.map (·.filter (!·.isProgress)) }

theorem trim_emitEvent_of_isProgress (w : World) {e : Event} (he : e.isProgress) :
    (w.emitEvent e).trim = w.trim := by
  unfold emitEvent trim
  cases w.log with
  | none => rfl
  | some events => simp [he]

theorem trim_emitEvent {v w : World} (h : v.trim = w.trim) (e : Event) :
    (v.emitEvent e).trim = (w.emitEvent e).trim := by
  by_cases he : e.isProgress
  · rw [trim_emitEvent_of_isProgress v he, trim_emitEvent_of_isProgress w he, h]
  · have hpush (u : World) : (u.emitEvent e).trim = u.trim.emitEvent e := by
      unfold emitEvent trim
      cases u.log with
      | none => rfl
      | some events => simp [he]
    rw [hpush, hpush, h]

theorem trim_emitAll {v w : World} (h : v.trim = w.trim) (events : List Event) :
    (events.foldl emitEvent v).trim = (events.foldl emitEvent w).trim := by
  induction events generalizing v w with
  | nil => exact h
  | cons e events ih => exact ih (trim_emitEvent h e)

theorem trim_eq_iff {v w : World} : v.trim = w.trim ↔
    v.heap = w.heap ∧ v.depth = w.depth ∧ v.specializer = w.specializer ∧ v.printed = w.printed ∧
      v.log.map (·.filter (!·.isProgress)) = w.log.map (·.filter (!·.isProgress)) := by
  simp [trim]

theorem trim_callable {v w : World} (h : v.trim = w.trim) (f : FunctionRef) :
    v.callable? f = w.callable? f := by
  rw [callable?, callable?, (trim_eq_iff.mp h).1]

theorem trim_chooseCode (fn : FunctionDef) :
    Alike (fun v w => v.trim = w.trim) (chooseCode fn) (chooseCode fn) := by
  intro v w h
  obtain ⟨hheap, hdepth, hspec, hprinted, hlog⟩ := trim_eq_iff.mp h
  unfold chooseCode
  rw [hspec]
  cases w.specializer with
  | none => exact .ok h
  | some s =>
    refine SameEnd.ok (trim_emitAll (trim_eq_iff.mpr ?_) _)
    exact ⟨hheap, hdepth, rfl, hprinted, hlog⟩

theorem trim_allocClosure (fn : FunctionDef) (f : FunctionRef) :
    Alike (fun v w => v.trim = w.trim) (allocClosure fn f) (allocClosure fn f) := by
  refine (trim_chooseCode fn).bind fun code v w h => ?_
  obtain ⟨hheap, hrest⟩ := trim_eq_iff.mp h
  change SameEnd Eq _ (EStateM.Result.ok _ _) (.ok _ _)
  rw [callable?, callable?, hheap]
  exact .ok (trim_eq_iff.mpr ⟨rfl, hrest⟩)

end World

def trimmed : CallAlignment where
  rel v w := v.trim = w.trim
  admits _ := True
  readGlobal h f slot := by
    rw [World.readGlobal, World.readGlobal, World.trim_callable h]
  writeGlobal h f slot x := by
    obtain ⟨hheap, hrest⟩ := World.trim_eq_iff.mp h
    exact World.trim_eq_iff.mpr ⟨by simp [World.writeGlobal, hheap], hrest⟩
  allocClosure _ f := World.trim_allocClosure _ f
  report_left he h := (World.trim_emitEvent_of_isProgress _ he).trans h
  report_right he h := h.trans (World.trim_emitEvent_of_isProgress _ he).symm
  partners := Eq
  fn_eq h := congrArg Callable.fn h
  callable {_ w} h f := by
    rw [World.trim_callable h]
    cases w.callable? f with
    | none => exact .none
    | some c => exact .some rfl
  depth_eq h := (World.trim_eq_iff.mp h).2.1
  setDepth h n := by
    obtain ⟨hheap, -, hrest⟩ := World.trim_eq_iff.mp h
    exact World.trim_eq_iff.mpr ⟨hheap, rfl, hrest⟩
  print h line := by
    obtain ⟨hheap, hdepth, hspec, hprinted, hlog⟩ := World.trim_eq_iff.mp h
    exact World.trim_eq_iff.mpr ⟨hheap, hdepth, hspec, by rw [hprinted], hlog⟩
  callBuiltin h name argc := World.trim_emitEvent h _
  callFunction h hp n := hp ▸ World.trim_emitEvent h _

theorem trimmed_engines : trimmed.Engines := by
  rintro c _ rfl call call' hc settings settings'
  unfold Callable.run
  cases c.code with
  | interpreted =>
    exact FunctionDef.interpret_alike trimmed.toAlignment hc settings settings' fun _ _ => trivial
  | specialized unit =>
    exact Lowered.execute_alike trimmed.toAlignment hc settings settings' fun _ _ => trivial

/-- The same reason to stop, except that a slot found unbound may go by another name. -/
inductive Stop.SameButName : Stop → Stop → Prop
  | refl (e : Stop) : SameButName e e
  | unboundLocal (name shown : String) :
      SameButName (.raised (.unboundLocal name)) (.raised (.unboundLocal shown))
  | unboundGlobal (name shown : String) :
      SameButName (.raised (.unboundGlobal name)) (.raised (.unboundGlobal shown))

/-- Whatever the frame and the world around it, the lowered code of a function ends as its body does
under the interpreter. A slot found unbound may be reported under another of its names, but not
where every slot goes by one name. -/
theorem lowering_preserves_meaning {fn : FunctionDef} {p : Lowered} (hp : fn.lower = .ok p)
    (hd : fn.DistinctDefs) {host : Host} (hhost : host.Respects trimmed.toAlignment)
    (settings : ExecSettings) (n : Nat) (a : Activation) :
    SameEnd Stop.SameButName trimmed.Acts
      (fn.interpret settings (applyValue settings host n) a)
      (p.execute settings (applyValue settings host n) a) ∧
    (fn.SingleNamed → SameEnd Eq trimmed.Acts
      (fn.interpret settings (applyValue settings host n) a)
      (p.execute settings (applyValue settings host n) a)) := by
  have hcallers := trimmed.applyValue trimmed_engines hhost (rfl : settings.maxCallDepth = _) n
  have ha : trimmed.Acts a a := ⟨rfl, rfl⟩
  constructor
  · obtain ⟨is, hr⟩ := FunctionDef.lower_renders hp
    let S : Simulation trimmed.toAlignment :=
      ⟨_, _, hcallers, settings, settings, p, Stop.SameButName, .refl⟩
    refine S.function hr (fun x hx => ?_) (S.makes_of_distinctDefs hr hd fun _ _ => trivial) ha
    cases x with
    | localVar name slot => exact .unboundLocal _ _
    | globalVar name slot => exact .unboundGlobal _ _
    | universal name => trivial
  · intro hs
    exact FunctionDef.lower_alike trimmed.toAlignment hcallers settings settings hp hs hd
      (fun _ _ => trivial) a a ha

theorem makeOne_keeps_meaning : ∃ p, Demo.makeOne.lower = .ok p ∧
    SameEnd Eq trimmed.Acts
      (Demo.makeOne.interpret {} (applyValue {} Demo.noHost 3)
        ⟨.blank ⟨0, "make_one"⟩ Demo.makeOne, { specializer := some (.ofSettings {}) }⟩)
      (p.execute {} (applyValue {} Demo.noHost 3)
        ⟨.blank ⟨0, "make_one"⟩ Demo.makeOne, { specializer := some (.ofSettings {}) }⟩) := by
  have hdistinct : Demo.makeOne.DistinctDefs := by
    intro f hf g hg _
    rw [List.mem_singleton.mp hf, List.mem_singleton.mp hg]
  have hhost : Demo.noHost.Respects trimmed.toAlignment := fun _ _ _ name _ => .raise _
  have hok : Demo.makeOne.lower.isOk := by decide +kernel
  cases hp : Demo.makeOne.lower with
  | error e => simp [hp, Except.isOk, Except.toBool] at hok
  | ok p =>
    exact ⟨p, rfl, (lowering_preserves_meaning hp hdistinct hhost {} 3 _).2 (by decide)⟩

end Tiered
