import Tiered.Proofs.CallConfinement
import Tiered.Proofs.Requests

/-! What a specializer remembers makes no difference. Whatever it has been asked before, and
whatever has left its cache since, it answers as if it compiled the function now, up to the names of
units. So the engine of a function value does not depend on the past. -/
namespace Tiered

section Answers

def Refusal.unnamed : Refusal → Refusal
  | .verification e => .verification { e with unit := "" }
  | e => e

/-- An answer of a specializer without the name that its loader gave the unit. -/
def unnamed : Except Refusal VerifiedUnit → Except Refusal VerifiedUnit
  | .ok unit => .ok { unit with name := "" }
  | .error e => .error e.unnamed

/-- The answer for a definition where nothing is remembered, without a name. -/
def FunctionDef.answer (enabled : Bool) (fn : FunctionDef) : Except Refusal VerifiedUnit :=
  if enabled then
    match fn.lower with
    | .error e => .error e.unnamed
    | .ok code =>
      match code.check with
      | .ok summary => .ok ⟨"", code, summary⟩
      | .error (offset, flaw) => .error (.verification ⟨"", offset, flaw⟩)
  else .error .disabled

theorem FunctionDef.answer_eq_ok_iff {enabled : Bool} {fn : FunctionDef} {u : VerifiedUnit} :
    fn.answer enabled = .ok u ↔
      enabled ∧ u.name = "" ∧ fn.lower = .ok u.code ∧ u.code.check = .ok u.summary := by
  unfold answer
  cases enabled with
  | false => simp
  | true =>
    cases fn.lower with
    | error e => simp
    | ok p =>
      constructor
      · intro h
        cases hcheck : p.check with
        | error e => simp [hcheck] at h
        | ok summary =>
          simp only [if_true, hcheck] at h
          obtain rfl := Except.ok.inj h
          exact ⟨rfl, rfl, rfl, hcheck⟩
      · rintro ⟨-, hname, hcode, hcheck⟩
        obtain rfl := Except.ok.inj hcode
        simp only [if_true, hcheck]
        rw [← hname]

/-- Compiling gives the same at any time, up to the name. -/
theorem Specializer.compile_unnamed (s : Specializer) (fn : FunctionDef) :
    unnamed (s.compile fn).result = fn.answer s.settings.enabled := by
  unfold compile FunctionDef.answer
  cases s.settings.enabled with
  | false => rfl
  | true =>
    cases fn.lower with
    | error e => rfl
    | ok code =>
      simp only [Loader.load, Lowered.verify]
      cases code.check with
      | ok summary => rfl
      | error e => rfl

theorem Specializer.answer_settings (s : Specializer) (r : Request) :
    (s.answer r).after.settings = s.settings := by
  have hcompile (fn : FunctionDef) : (s.compile fn).after.settings = s.settings := by
    obtain ⟨loader, compiles, failures, h⟩ := s.compile_after fn
    rw [h]
  cases r with
  | compile fn => exact hcompile fn
  | lookup fn =>
    change (s.lookup fn).after.settings = s.settings
    unfold lookup
    split
    · rfl
    · exact hcompile fn

/-- The code that a definition is to have: it is specialized exactly if specialization is on, the
definition can be lowered and the result verifies. It is the unit of this very definition then, with
the summary that verification gave. -/
structure Code.ChosenFor (fn : FunctionDef) (enabled : Bool) (code : Code) : Prop where
  specialized_iff : code.isSpecialized ↔
    enabled ∧ ∃ p, fn.lower = .ok p ∧ ∃ name summary, p.verify name = .ok summary
  unit {u : VerifiedUnit} (h : code = .specialized u) :
    fn.lower = .ok u.code ∧ u.code.verify u.name = .ok u.summary

theorem Code.ChosenFor.serves {fn : FunctionDef} {enabled : Bool} {code : Code}
    (h : code.ChosenFor fn enabled) : code.Serves fn := by
  cases hcode : code with
  | interpreted => trivial
  | specialized u => exact (h.unit hcode).1

theorem Code.interpreted_chosenFor (fn : FunctionDef) : interpreted.ChosenFor fn false :=
  ⟨by simp [isSpecialized], nofun⟩

theorem Code.ofResult_chosenFor {fn : FunctionDef} {enabled : Bool}
    {r : Except Refusal VerifiedUnit} (h : unnamed r = fn.answer enabled) :
    (ofResult r).ChosenFor fn enabled := by
  cases r with
  | ok u =>
    obtain ⟨henabled, -, hlower, hcheck⟩ := FunctionDef.answer_eq_ok_iff.mp h.symm
    have hverify : u.code.verify u.name = .ok u.summary := Lowered.verify_eq_ok_iff.mpr hcheck
    constructor
    · exact iff_of_true rfl ⟨henabled, u.code, hlower, u.name, u.summary, hverify⟩
    · rintro _ ⟨⟩
      exact ⟨hlower, hverify⟩
  | error e =>
    constructor
    · apply iff_of_false nofun
      rintro ⟨henabled, p, hlower, name, summary, hverify⟩
      have hok : fn.answer enabled = .ok ⟨"", p, summary⟩ :=
        FunctionDef.answer_eq_ok_iff.mpr
          ⟨henabled, rfl, hlower, Lowered.verify_eq_ok_iff.mp hverify⟩
      rw [hok] at h
      cases h
    · exact nofun

end Answers

/-- Definitions, with those nested in them, of which no two share an identity. -/
structure Catalog where
  mem : FunctionDef → Prop
  nested {fn : FunctionDef} (h : mem fn) : ∀ g ∈ fn.defs, mem g
  unique {f g : FunctionDef} (hf : mem f) (hg : mem g) (h : f.id = g.id) : f = g

namespace Catalog

variable (D : Catalog)

/-- All that a specializer remembers is what it would answer now. -/
def Coherent (s : Specializer) : Prop :=
  ∀ entry ∈ s.cache.entries, ∀ fn, D.mem fn → fn.id = entry.1 →
    unnamed entry.2 = fn.answer s.settings.enabled

variable {D}

theorem Coherent.lookup {s : Specializer} (h : D.Coherent s) {fn : FunctionDef} (hf : D.mem fn) :
    unnamed (s.lookup fn).result = fn.answer s.settings.enabled := by
  rcases s.lookup_result fn with hmem | heq
  · exact h _ hmem fn hf rfl
  · rw [heq]
    exact s.compile_unnamed fn

theorem Coherent.answer {s : Specializer} (h : D.Coherent s) {r : Request} (hr : D.mem r.fn) :
    D.Coherent (s.answer r).after := by
  intro entry he g hg hid
  rw [Specializer.answer_settings]
  cases r with
  | compile fn =>
    obtain ⟨loader, compiles, failures, hafter⟩ := s.compile_after fn
    change entry ∈ (s.compile fn).after.cache.entries at he
    rw [hafter] at he
    exact h entry he g hg hid
  | lookup fn =>
    rcases Specializer.mem_lookup_after he with rfl | he
    · obtain rfl : g = fn := D.unique hg hr hid
      exact h.lookup hr
    · exact h entry he g hg hid

theorem afterAll_coherent (settings : SpecializerSettings) {past : List Request}
    (h : ∀ r ∈ past, D.mem r.fn) :
    ((Specializer.ofSettings settings).afterAll past).settings = settings ∧
      D.Coherent ((Specializer.ofSettings settings).afterAll past) := by
  induction past using List.reverseRecOn with
  | nil => exact ⟨rfl, fun entry he => by cases he⟩
  | append_singleton past r ih =>
    obtain ⟨hsettings, hcoherent⟩ := ih fun r hr => h r (List.mem_append_left _ hr)
    have hr : D.mem r.fn := h r (by simp)
    rw [Specializer.afterAll_snoc]
    exact ⟨by rw [Specializer.answer_settings, hsettings], hcoherent.answer hr⟩

end Catalog

/-- What can be asked for while programs run: requests to the specializer itself, function values
made of definitions, and the definitions and calls that threads execute. -/
inductive Deed where
  | ask (r : Request)
  | codeFor (fn : FunctionDef)
  | specialize (fn : FunctionDef)
  | interpret (fn : FunctionDef)
  | define (t : Thread) (fn : FunctionDef) (enclosing : FunctionRef)
  | call (t : Thread) (host : Host) (fuel : Nat) (callee : Value) (args : Arguments)

namespace World

def perform (w : World) : Deed → World
  | .ask r =>
    match w.specializer with
    | none => w
    | some s =>
      (s.answer r).events.foldl emitEvent { w with specializer := some (s.answer r).after }
  | .codeFor fn => w.settle (chooseCode fn)
  | .specialize fn => w.settle (do allocFunction fn (← chooseCode fn))
  | .interpret fn => w.settle (allocFunction fn .interpreted)
  | .define t fn enclosing => (t.run w (allocClosure fn enclosing)).world
  | .call t host fuel callee args =>
    (t.run w (applyValue t.settings host fuel callee args)).world

/-- The world after a history, the earliest deed of it first. -/
def performAll (w : World) (history : List Deed) : World :=
  history.foldl perform w

/-- A function value of its own comes to stand at the end of the heap. -/
theorem perform_specialize (w : World) (fn : FunctionDef) :
    ∃ log, w.perform (.specialize fn) =
      { w with
        heap := w.heap.push { fn := fn, qualifiedName := fn.name, code := w.codeFor fn }
        specializer := w.specializer.map fun s => (s.lookup fn).after
        log := log } := by
  obtain ⟨log, heq⟩ := chooseCode_eq fn w
  refine ⟨log, ?_⟩
  change World.settle w (EStateM.bind (chooseCode fn) _) = _
  unfold settle EStateM.bind
  rw [heq]
  rfl

@[simp] theorem performAll_nil (w : World) : w.performAll [] = w := rfl

@[simp] theorem performAll_cons (w : World) (d : Deed) (history : List Deed) :
    w.performAll (d :: history) = (w.perform d).performAll history := rfl

@[simp] theorem performAll_append (w : World) (before after : List Deed) :
    w.performAll (before ++ after) = (w.performAll before).performAll after := by
  simp [performAll]

end World

/-- A thread runs at a depth of its own, and sees the specializer only if it carries it. -/
theorem Thread.run_world {α : Type} (t : Thread) (w : World) (x : Run World α) :
    (t.run w x).world =
      let after := World.settle
        { w with depth := t.depth, specializer := if t.specializing then w.specializer else none } x
      { after with
        depth := w.depth
        specializer := if t.specializing then after.specializer else w.specializer } := by
  simp only [Thread.run, World.settle]
  cases x { w with
    depth := t.depth, specializer := if t.specializing then w.specializer else none } <;> rfl

/-- Whether the function values that a deed makes are meant to be specialized. -/
def Deed.enables (settings : SpecializerSettings) : Deed → Bool
  | .specialize _ => settings.enabled
  | .define t _ _ | .call t _ _ _ _ => t.specializing && settings.enabled
  | .ask _ | .codeFor _ | .interpret _ => false

namespace World

/-- The definitions of the function values and the code that runs each of them. -/
def bodies (w : World) : Array (FunctionDef × Code) :=
  w.heap.map fun c => (c.fn, c.code)

variable {w : World}

@[simp] theorem size_bodies : w.bodies.size = w.heap.size := by
  simp [bodies]

theorem bodies_of_heap {i : Nat} {c : Callable} (h : w.heap[i]? = some c) :
    w.bodies[i]? = some (c.fn, c.code) := by
  simp [bodies, h]

theorem bodies_push (c : Callable) (s : Option Specializer) (log : Option (Array Event)) :
    { w with heap := w.heap.push c, specializer := s, log := log }.bodies =
      w.bodies.push (c.fn, c.code) := by
  simp [bodies]

/-- Function values keep their bodies when their slots are written. -/
theorem bodies_writeGlobal (f : FunctionRef) (slot : UInt16) (v : Value) :
    (w.writeGlobal f slot v).bodies = w.bodies := by
  apply Array.ext_getElem?
  intro i
  simp only [bodies, writeGlobal, Array.getElem?_map, Array.getElem?_modify]
  split
  · rw [Option.map_map]
    rfl
  · rfl

end World

namespace Catalog

variable (D : Catalog) (settings : SpecializerSettings)

/-- The specializer is out of sight, or is what some history of requests has made of it. -/
def Asked (visible : Bool) (s : Option Specializer) : Prop :=
  ∃ past : List Request, (∀ r ∈ past, D.mem r.fn) ∧
    s = if visible then some ((Specializer.ofSettings settings).afterAll past) else none

/-- A world that has grown since its function values had the bodies `base`: they have kept them, and
those made since have the code they are to have. -/
structure Grown (visible enabled : Bool) (base : Array (FunctionDef × Code)) (w : World) :
    Prop where
  asked : D.Asked settings visible w.specializer
  sound : ∀ b ∈ w.bodies, D.mem b.1 ∧ b.2.Serves b.1
  size_le : base.size ≤ w.bodies.size
  kept : ∀ i < base.size, w.bodies[i]? = base[i]?
  made : ∀ i b, base.size ≤ i → w.bodies[i]? = some b → b.2.ChosenFor b.1 enabled

variable {D settings} {visible enabled : Bool} {base : Array (FunctionDef × Code)} {w : World}

theorem Asked.answer {s : Option Specializer} (h : D.Asked settings visible s) {r : Request}
    (hr : D.mem r.fn) : D.Asked settings visible (s.map fun s => (s.answer r).after) := by
  obtain ⟨past, hpast, rfl⟩ := h
  refine ⟨past ++ [r], ?_, ?_⟩
  · simpa [or_imp, forall_and] using ⟨hpast, hr⟩
  · cases visible <;> simp

/-- The code that a definition gets is the code it is to have. -/
theorem Asked.codeFor (h : D.Asked settings visible w.specializer) {fn : FunctionDef}
    (hf : D.mem fn) : (w.codeFor fn).ChosenFor fn (visible && settings.enabled) := by
  obtain ⟨past, hpast, hs⟩ := h
  unfold World.codeFor
  rw [hs]
  cases visible with
  | false => exact Code.interpreted_chosenFor fn
  | true =>
    obtain ⟨hsettings, hcoherent⟩ := afterAll_coherent settings hpast
    have hanswer := hcoherent.lookup hf
    rw [hsettings] at hanswer
    exact Code.ofResult_chosenFor hanswer

namespace Grown

variable (h : D.Grown settings visible enabled base w)
include h

/-- A new start from the bodies at hand. -/
theorem rebase (enabled' : Bool) : D.Grown settings visible enabled' w.bodies w where
  asked := h.asked
  sound := h.sound
  size_le := Nat.le_refl _
  kept _ _ := rfl
  made i b hi hb := by
    rw [Array.getElem?_eq_none hi] at hb
    cases hb

/-- Only the bodies count, and what the specializer was asked. -/
theorem same {visible' : Bool} {v : World} (hbodies : v.bodies = w.bodies)
    (hs : D.Asked settings visible' v.specializer) :
    D.Grown settings visible' enabled base v where
  asked := hs
  sound := hbodies ▸ h.sound
  size_le := hbodies ▸ h.size_le
  kept := hbodies ▸ h.kept
  made := hbodies ▸ h.made

/-- One more function value, which has the code it is to have. -/
theorem push {c : Callable} (hmem : D.mem c.fn) (hcode : c.code.ChosenFor c.fn enabled)
    {s : Option Specializer} (hs : D.Asked settings visible s) (log : Option (Array Event)) :
    D.Grown settings visible enabled base
      { w with heap := w.heap.push c, specializer := s, log := log } := by
  have hle := h.size_le
  refine ⟨hs, ?_, ?_, ?_, ?_⟩
  all_goals rw [World.bodies_push]
  · intro b hb
    rcases Array.mem_push.mp hb with hb | rfl
    · exact h.sound b hb
    · exact ⟨hmem, hcode.serves⟩
  · rw [Array.size_push]
    omega
  · intro i hi
    rw [Array.getElem?_push, if_neg (by omega)]
    exact h.kept i hi
  · intro i b hi hb
    rw [Array.getElem?_push] at hb
    split at hb
    · obtain rfl := Option.some.inj hb
      exact hcode
    · exact h.made i b hi hb

end Grown

variable (D settings)

/-- Runs let the world grow. They may get hold of any function value. -/
def discipline (visible : Bool) (base : Array (FunctionDef × Code)) : Discipline where
  inv := D.Grown settings visible (visible && settings.enabled) base
  owns _ := True
  admits := D.mem
  same h hheap hs := h.same (congrArg (Array.map _) hheap) (hs ▸ h.asked)
  readGlobal _ _ _ _ _ _ _ _ := trivial
  writeGlobal h f _ slot v _ := h.same (World.bodies_writeGlobal f slot v) h.asked
  allocClosure {fn} hfn f _ := by
    intro w hw
    obtain ⟨log, heq⟩ := World.allocClosure_eq fn f w
    rw [heq]
    exact ⟨trivial, hw.push hfn (hw.asked.codeFor hfn) (hw.asked.answer (r := .lookup fn) hfn) log⟩
  callable {w} h f c hc := by
    have hbody := Array.mem_of_getElem? (World.bodies_of_heap hc)
    obtain ⟨hmem, hserves⟩ := h.sound _ hbody
    cases hcode : c.code with
    | interpreted => exact D.nested hmem
    | specialized unit =>
      simp only [hcode] at hserves
      obtain ⟨is, hr⟩ := FunctionDef.lower_renders hserves
      exact ⟨fun g hg => D.nested hmem g (hr.table g hg), fun _ _ _ _ => trivial⟩

/-- Deeds that concern definitions of the catalog. Builtins of a host may do as they like with the
world, as long as it goes on to have grown in the way of the thread that calls them. -/
def Allows : Deed → Prop
  | .ask r => D.mem r.fn
  | .codeFor fn | .specialize fn | .interpret fn | .define _ fn _ => D.mem fn
  | .call t host _ _ _ => ∀ base, host.Keeps (D.discipline settings t.specializing base)

variable {D settings}

/-- A run on a thread. The specializer is out of sight of threads that do not carry it. -/
theorem Grown.run {α : Type} {post : α → Prop} {x : Run World α} (t : Thread)
    (h : D.Grown settings true enabled w.bodies w)
    (hx : Confines (D.discipline settings t.specializing w.bodies).inv post x) :
    D.Grown settings true (t.specializing && settings.enabled) w.bodies (t.run w x).world := by
  have hvisible :
      D.Asked settings t.specializing (if t.specializing then w.specializer else none) := by
    obtain ⟨past, hpast, hs⟩ := h.asked
    exact ⟨past, hpast, by rw [hs, if_pos rfl]⟩
  have hback {after : World} (hafter : D.Asked settings t.specializing after.specializer) :
      D.Asked settings true (if t.specializing then after.specializer else w.specializer) := by
    cases ht : t.specializing with
    | true =>
      rw [ht] at hafter
      exact hafter
    | false => exact h.asked
  have hstart : (D.discipline settings t.specializing w.bodies).inv
      { w with depth := t.depth, specializer := if t.specializing then w.specializer else none } :=
    (h.rebase _).same rfl hvisible
  have hend := hx.settle hstart
  rw [Thread.run_world]
  exact hend.same rfl (hback hend.asked)

/-- One deed lets the world grow. -/
theorem Grown.perform (h : D.Grown settings true enabled w.bodies w) {d : Deed}
    (hd : D.Allows settings d) :
    D.Grown settings true (d.enables settings) w.bodies (w.perform d) := by
  cases d with
  | ask r =>
    have hasked := h.asked.answer (r := r) hd
    unfold World.perform
    cases hs : w.specializer with
    | none => exact h.rebase _
    | some s =>
      rw [hs] at hasked
      obtain ⟨log, hlog⟩ := World.emitAll_eq (s.answer r).events
        { w with specializer := some (s.answer r).after }
      simp only [hlog]
      exact (h.rebase _).same rfl hasked
  | codeFor fn =>
    obtain ⟨log, heq⟩ := World.chooseCode_eq fn w
    rw [World.perform, World.settle_of_ok heq]
    exact (h.rebase _).same rfl (h.asked.answer (r := .lookup fn) hd)
  | specialize fn =>
    obtain ⟨log, heq⟩ := World.perform_specialize w fn
    rw [heq]
    refine (h.rebase _).push ?_ (h.asked.codeFor hd) (h.asked.answer (r := .lookup fn) hd) log
    exact hd
  | interpret fn =>
    refine (h.rebase _).push ?_ (Code.interpreted_chosenFor fn) h.asked w.log
    exact hd
  | define t fn f =>
    exact h.run t ((D.discipline settings t.specializing w.bodies).allocClosure hd trivial)
  | call t host fuel callee args =>
    exact h.run t ((D.discipline settings t.specializing w.bodies).applyValue (hd w.bodies)
      t.settings fuel callee args (fun _ _ => trivial)
      ⟨fun _ _ _ _ => trivial, fun _ _ _ _ => trivial⟩)

/-- Deed by deed, the function values there are keep their bodies. -/
theorem Grown.performAll (h : D.Grown settings true enabled w.bodies w) {history : List Deed}
    (hh : ∀ d ∈ history, D.Allows settings d) :
    D.Grown settings true false (w.performAll history).bodies (w.performAll history) ∧
      ∀ i < w.bodies.size, (w.performAll history).bodies[i]? = w.bodies[i]? := by
  induction history generalizing w enabled with
  | nil => exact ⟨h.rebase _, fun _ _ => rfl⟩
  | cons d history ih =>
    have hstep := h.perform (hh d List.mem_cons_self)
    obtain ⟨hgrown, hkept⟩ := ih (hstep.rebase false) fun e he => hh e (List.mem_cons_of_mem _ he)
    refine ⟨hgrown, fun i hi => ?_⟩
    rw [World.performAll_cons, hkept i (Nat.lt_of_lt_of_le hi hstep.size_le)]
    exact hstep.kept i hi

end Catalog

/-- Where programs start: without function values, and with a specializer that was asked nothing. -/
def World.fresh (settings : SpecializerSettings) : World where
  specializer := some (.ofSettings settings)

theorem World.fresh_grown (D : Catalog) (settings : SpecializerSettings) :
    D.Grown settings true false (fresh settings).bodies (fresh settings) where
  asked := ⟨[], by simp, rfl⟩
  sound b hb := by simp [bodies, fresh] at hb
  size_le := Nat.le_refl _
  kept _ _ := rfl
  made i b hi hb := by
    rw [Array.getElem?_eq_none hi] at hb
    cases hb

/-- The function value at place `i` of the heap was made by the deed `d` of a history. -/
def MadeBy (settings : SpecializerSettings) (history : List Deed) (d : Deed) (i : Nat) : Prop :=
  ∃ before since, history = before ++ d :: since ∧
    ((World.fresh settings).performAll before).heap.size ≤ i ∧
    i < ((World.fresh settings).performAll (before ++ [d])).heap.size

theorem exists_madeBy {settings : SpecializerSettings} {history : List Deed} {i : Nat}
    (h : i < ((World.fresh settings).performAll history).heap.size) :
    ∃ d, MadeBy settings history d i := by
  induction history using List.reverseRecOn with
  | nil => exact absurd h (Nat.not_lt_zero i)
  | append_singleton history d ih =>
    by_cases hi : i < ((World.fresh settings).performAll history).heap.size
    · obtain ⟨e, before, since, rfl, hle, hlt⟩ := ih hi
      exact ⟨e, before, since ++ [d], by simp, hle, hlt⟩
    · exact ⟨d, history, [], rfl, Nat.le_of_not_lt hi, h⟩

theorem Catalog.chosenFor_of_madeBy {D : Catalog} {settings : SpecializerSettings}
    {history : List Deed} (hh : ∀ d ∈ history, D.Allows settings d) {d : Deed} {i : Nat}
    (hmade : MadeBy settings history d i) {c : Callable}
    (hc : ((World.fresh settings).performAll history).heap[i]? = some c) :
    c.code.ChosenFor c.fn (d.enables settings) := by
  obtain ⟨before, since, rfl, hle, hlt⟩ := hmade
  obtain ⟨hbefore, hd, hsince⟩ := by simpa [or_imp, forall_and] using hh
  have hgrown := ((World.fresh_grown D settings).performAll hbefore).1
  have hstep := hgrown.perform hd
  have hbody := World.bodies_of_heap hc
  -- Whatever came since has left the body alone.
  rw [World.performAll_append, World.performAll_cons,
    ((hstep.rebase false).performAll hsince).2 i (by simpa using hlt)] at hbody
  exact hstep.made i _ (by simpa using hle) hbody

theorem Deed.enables_eq_false {settings : SpecializerSettings} (h : settings.enabled = false)
    (d : Deed) : d.enables settings = false := by
  cases d <;> simp [enables, h]

/-- After any history of requests, whatever has left the cache in its course, a lookup answers as
compiling the function now would, up to the name of the unit. While programs run the specializer is
always what some such history has made of it. So the code of every function value, at any later
time, is decided by its own definition and by the thread that made it alone; where specialization is
switched off, none is specialized. -/
theorem cache_coherent (D : Catalog) (settings : SpecializerSettings) :
    (∀ past : List Request, (∀ r ∈ past, D.mem r.fn) → ∀ fn, D.mem fn →
      unnamed (((Specializer.ofSettings settings).afterAll past).lookup fn).result =
        unnamed (((Specializer.ofSettings settings).afterAll past).compile fn).result) ∧
    ∀ history : List Deed, (∀ d ∈ history, D.Allows settings d) →
      D.Asked settings true ((World.fresh settings).performAll history).specializer ∧
      ∀ i c, ((World.fresh settings).performAll history).heap[i]? = some c →
        (∃ d, MadeBy settings history d i) ∧
        (∀ d, MadeBy settings history d i → c.code.ChosenFor c.fn (d.enables settings)) ∧
        (settings.enabled = false → ¬c.code.isSpecialized) := by
  constructor
  · intro past hpast fn hfn
    obtain ⟨-, hcoherent⟩ := Catalog.afterAll_coherent settings hpast
    rw [hcoherent.lookup hfn, Specializer.compile_unnamed]
  · intro history hh
    refine ⟨((World.fresh_grown D settings).performAll hh).1.asked, ?_⟩
    intro i c hc
    have hmade := exists_madeBy (Array.getElem?_eq_some_iff.mp hc).1
    have hchosen (d : Deed) (hd : MadeBy settings history d i) :
        c.code.ChosenFor c.fn (d.enables settings) :=
      D.chosenFor_of_madeBy hh hd hc
    refine ⟨hmade, hchosen, fun hoff hs => ?_⟩
    obtain ⟨d, hd⟩ := hmade
    have henabled := ((hchosen d hd).specialized_iff.mp hs).1
    rw [d.enables_eq_false hoff] at henabled
    cases henabled

/-- The samples of the demonstration that define a function or cannot be lowered. -/
def Demo.catalog : Catalog where
  mem fn := fn = makeOne ∨ fn = one ∨ fn = total
  nested := by
    rintro fn (rfl | rfl | rfl) g hg
    · exact .inr (.inl (List.mem_singleton.mp hg))
    · cases hg
    · cases hg
  unique := by
    rintro f g (rfl | rfl | rfl) (rfl | rfl | rfl) h
    all_goals first | rfl | cases h

/-- A specializer with room for one function, out of whose cache another has driven the first. -/
def Demo.crowded : Specializer :=
  (Specializer.ofSettings { cacheSize := 1 }).afterAll [.lookup one, .compile one, .lookup total]

/-- Calls of a sample through a builtin of the host, on threads with the specializer and without.
With room for one function in the cache, each lookup drives out the one before. -/
def Demo.callsAndLookups : List Deed :=
  let apply (specializing : Bool) : Deed :=
    .call { settings := {}, specializing := specializing } callingHost 5 (.builtin (.host "apply"))
      { positional := [.function ⟨0, "make_one"⟩] }
  [.interpret makeOne, .specialize total, apply true, .ask (.lookup total), apply false,
    .ask (.compile one), apply true, .specialize one]

theorem callsAndLookups_coherent :
    unnamed (Demo.crowded.lookup Demo.one).result = unnamed (Demo.crowded.compile Demo.one).result ∧
    ((World.fresh { cacheSize := 1 }).performAll Demo.callsAndLookups).heap.toList.map
        (fun c => (c.fn.name, c.code.isSpecialized)) =
      [("make_one", false), ("total", false), ("one", true), ("one", false), ("one", true),
        ("one", true)] ∧
    ∀ i c, ((World.fresh { cacheSize := 1 }).performAll Demo.callsAndLookups).heap[i]? = some c →
      ∃ d, MadeBy { cacheSize := 1 } Demo.callsAndLookups d i ∧
        c.code.ChosenFor c.fn (d.enables { cacheSize := 1 }) := by
  have hmakeOne : Demo.catalog.mem Demo.makeOne := .inl rfl
  have hone : Demo.catalog.mem Demo.one := .inr (.inl rfl)
  have htotal : Demo.catalog.mem Demo.total := .inr (.inr rfl)
  have hallows : ∀ d ∈ Demo.callsAndLookups, Demo.catalog.Allows { cacheSize := 1 } d := by
    have hkeeps (visible : Bool) (base : Array (FunctionDef × Code)) :=
      Demo.callingHost_keeps (Demo.catalog.discipline { cacheSize := 1 } visible base)
    simp only [Demo.callsAndLookups, List.forall_mem_cons]
    exact ⟨hmakeOne, htotal, hkeeps true, htotal, hkeeps false, hone, hkeeps true, hone,
      List.forall_mem_nil _⟩
  obtain ⟨hlookup, hhistory⟩ := cache_coherent Demo.catalog { cacheSize := 1 }
  refine ⟨hlookup _ ?_ Demo.one hone, by decide +kernel, fun i c hc => ?_⟩
  · simp only [List.forall_mem_cons]
    exact ⟨hone, hone, htotal, List.forall_mem_nil _⟩
  · obtain ⟨⟨d, hd⟩, hchosen, -⟩ := (hhistory _ hallows).2 i c hc
    exact ⟨d, hd, hchosen d hd⟩

end Tiered
