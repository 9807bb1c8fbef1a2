import Tiered.Proofs.CodePolicy
import Tiered.Proofs.LoweringMeaning

/-! Whole programs cannot tell engines apart: two runs that differ only in which function values are
specialized, and in the specializers they make new ones with, end alike. -/
namespace Tiered

/-- The definitions of a program. Those nested in one of them are among them, no two share an
identity, and in each of them every slot goes by one name. -/
structure Definitions where
  mem : FunctionDef → Prop
  nested {fn : FunctionDef} (h : mem fn) : ∀ g ∈ fn.defs, mem g
  unique {f g : FunctionDef} (hf : mem f) (hg : mem g) (h : f.id = g.id) : f = g
  singleNamed {fn : FunctionDef} (h : mem fn) : fn.SingleNamed

namespace Definitions

variable (D : Definitions)

def Remembers (s : Specializer) : Prop :=
  ∀ entry ∈ s.cache.entries, ∀ fn, D.mem fn → fn.id = entry.1 → (Code.ofResult entry.2).Serves fn

/-- Function values run the definitions of the program in either engine. -/
def policy : CodePolicy where
  admits := D.mem
  runs fn code := code.Serves fn
  serves _ hs := hs
  shared hf hg hid h := D.unique hf hg hid ▸ h

/-- Function values at the same place in two runs. Each may run in an engine of its own. -/
structure Partners (c d : Callable) : Prop where
  fn_eq : c.fn = d.fn
  name_eq : c.qualifiedName = d.qualifiedName
  globals_eq : c.globals = d.globals
  mem : D.mem c.fn
  left : c.code.Serves c.fn
  right : d.code.Serves d.fn

/-- Worlds of two runs in step with each other. Neither their specializers nor what is reported in
them need agree. -/
structure Matches (v w : World) : Prop where
  size_eq : v.heap.size = w.heap.size
  callable (f : FunctionRef) : Option.Rel D.Partners (v.callable? f) (w.callable? f)
  depth_eq : v.depth = w.depth
  printed_eq : v.printed = w.printed
  left : ∀ s ∈ v.specializer, D.Remembers s
  right : ∀ s ∈ w.specializer, D.Remembers s

variable {D}

namespace Matches

variable {v w : World} (h : D.Matches v w)

include h

theorem readGlobal (f : FunctionRef) (slot : UInt16) :
    v.readGlobal f slot = w.readGlobal f slot := by
  have hpair := h.callable f
  unfold World.readGlobal
  generalize v.callable? f = x, w.callable? f = y at hpair ⊢
  cases hpair with
  | none => rfl
  | some hp =>
    change Callable.readGlobal _ slot = Callable.readGlobal _ slot
    rw [Callable.readGlobal, Callable.readGlobal, hp.globals_eq]

theorem writeGlobal (f : FunctionRef) (slot : UInt16) (x : Value) :
    D.Matches (v.writeGlobal f slot x) (w.writeGlobal f slot x) :=
  { h with
    size_eq := by
      rw [World.writeGlobal, World.writeGlobal, Array.size_modify, Array.size_modify, h.size_eq]
    callable := fun g => by
      have hpair := h.callable g
      unfold World.callable? World.writeGlobal at *
      rw [Array.getElem?_modify, Array.getElem?_modify]
      split
      · generalize v.heap[g.index]? = c, w.heap[g.index]? = d at hpair ⊢
        cases hpair with
        | none => exact .none
        | some hp =>
          refine .some { hp with globals_eq := ?_ }
          simp only [Callable.writeGlobal, hp.globals_eq]
      · exact hpair }

/-- Anything may be reported on either side. -/
theorem relog (log log' : Option (Array Event)) :
    D.Matches { v with log := log } { w with log := log' } :=
  ⟨h.size_eq, h.callable, h.depth_eq, h.printed_eq, h.left, h.right⟩

end Matches

theorem Matches.alloc {v w : World} (h : D.Matches v w) {c d : Callable} (hp : D.Partners c d) :
    D.Matches { v with heap := v.heap.push c } { w with heap := w.heap.push d } :=
  { h with
    size_eq := by simp [h.size_eq]
    callable := fun f => by
      have hpair := h.callable f
      unfold World.callable? at *
      rw [Array.getElem?_push, Array.getElem?_push, h.size_eq]
      split
      · exact .some hp
      · exact hpair }

theorem Matches.allocClosure {fn : FunctionDef} (hf : D.mem fn) (f : FunctionRef) :
    Alike D.Matches (World.allocClosure fn f) (World.allocClosure fn f) := by
  intro v w h
  obtain ⟨code, s, log, hv, hserves, hs⟩ := D.policy.chooseCode_spec h.left hf
  obtain ⟨code', s', log', hw, hserves', hs'⟩ := D.policy.chooseCode_spec h.right hf
  have hchosen : D.Matches { v with specializer := s, log := log }
      { w with specializer := s', log := log' } :=
    ⟨h.size_eq, h.callable, h.depth_eq, h.printed_eq, hs, hs'⟩
  have hname : ((v.callable? f).map (·.qualifiedName)).getD f.name =
      ((w.callable? f).map (·.qualifiedName)).getD f.name := by
    have hpair := h.callable f
    generalize v.callable? f = x, w.callable? f = y at hpair ⊢
    cases hpair with
    | none => rfl
    | some hp => exact hp.name_eq
  change SameEnd Eq D.Matches (EStateM.bind (World.chooseCode fn) _ v)
    (EStateM.bind (World.chooseCode fn) _ w)
  unfold EStateM.bind
  rw [hv, hw]
  change SameEnd Eq D.Matches (EStateM.Result.ok (FunctionRef.mk v.heap.size fn.name) _)
    (.ok (FunctionRef.mk w.heap.size fn.name) _)
  rw [h.size_eq]
  have hqualified := congrArg (· ++ "." ++ fn.name) hname
  exact .ok (hchosen.alloc ⟨rfl, hqualified, rfl, hf, hserves, hserves'⟩)

variable (D)

def alignment : CallAlignment where
  rel := D.Matches
  admits := D.mem
  readGlobal h f slot := h.readGlobal f slot
  writeGlobal h f slot x := h.writeGlobal f slot x
  allocClosure hf f := Matches.allocClosure hf f
  report_left {_ w} _ _ h := h.relog _ w.log
  report_right {v _} _ _ h := h.relog v.log _
  partners := D.Partners
  fn_eq h := h.fn_eq
  callable h f := h.callable f
  depth_eq h := h.depth_eq
  setDepth h _ := { h with depth_eq := rfl }
  print h line := { h with printed_eq := congrArg (·.push line) h.printed_eq }
  callBuiltin h _ _ := h.relog _ _
  callFunction h _ _ := h.relog _ _

theorem distinctDefs {fn : FunctionDef} (h : D.mem fn) : fn.DistinctDefs :=
  fun f hf g hg hid => D.unique (D.nested h f hf) (D.nested h g hg) hid

/-- Partners run alike, whichever engine each of them runs in. -/
theorem engines : D.alignment.Engines := by
  intro c d hp call call' hc settings settings'
  have hadmits : ∀ g ∈ c.fn.defs, D.mem g := D.nested hp.mem
  have hs := D.singleNamed hp.mem
  have hd := D.distinctDefs hp.mem
  have hleft := hp.left
  have hright := hp.right
  unfold Callable.run
  rw [← hp.fn_eq] at hright ⊢
  cases hcode : c.code with
  | interpreted =>
    cases hcode' : d.code with
    | interpreted =>
      exact FunctionDef.interpret_alike D.alignment.toAlignment hc settings settings' hadmits
    | specialized unit' =>
      rw [hcode'] at hright
      exact FunctionDef.lower_alike D.alignment.toAlignment hc settings settings' hright hs hd
        hadmits
  | specialized unit =>
    rw [hcode] at hleft
    cases hcode' : d.code with
    | interpreted =>
      -- The machine is on the left here: the simulation is read from right to left.
      exact Alignment.alike_of_flip (FunctionDef.lower_alike D.alignment.toAlignment.flip hc.flip
        settings' settings hleft hs hd hadmits)
    | specialized unit' =>
      rw [hcode'] at hright
      have hsame : unit.code = unit'.code := Except.ok.inj (hleft.symm.trans hright)
      obtain ⟨is, hr⟩ := FunctionDef.lower_renders hright
      simp only [hsame]
      exact Lowered.execute_alike D.alignment.toAlignment hc settings settings'
        fun g hg => hadmits g (hr.table g hg)

end Definitions

/-- Calls of the same value in matching worlds end alike: with the same value or for the same
reason, and in matching worlds again. Which function values are specialized on either side, and what
their specializers remember, makes no difference. -/
theorem call_engine_independent (D : Definitions) {host : Host}
    (hhost : host.Respects D.alignment.toAlignment) {settings settings' : ExecSettings}
    (hl : settings.maxCallDepth = settings'.maxCallDepth) (n : Nat) (callee : Value)
    (args : Arguments) {v w : World} (h : D.Matches v w) :
    SameEnd Eq D.Matches (applyValue settings host n callee args v)
      (applyValue settings' host n callee args w) :=
  D.alignment.applyValue D.engines hhost hl n callee args v w h

def Demo.definitions : Definitions where
  mem fn := fn = makeOne ∨ fn = one
  nested := by
    rintro fn (rfl | rfl) g hg
    · exact .inr (List.mem_singleton.mp hg)
    · cases hg
  unique := by
    rintro f g (rfl | rfl) (rfl | rfl) h
    · rfl
    · cases h
    · cases h
    · rfl
  singleNamed := by
    rintro fn (rfl | rfl) <;> decide

def Demo.start (code : Code) (s : Option Specializer) : World where
  heap := #[{ fn := makeOne, qualifiedName := "make_one", code := code }]
  specializer := s

theorem makeOne_engine_independent :
    (Code.ofResult ((Specializer.ofSettings {}).compile Demo.makeOne).result).isSpecialized ∧
    SameEnd Eq Demo.definitions.Matches
      (applyValue {} Demo.noHost 3 (.function ⟨0, "make_one"⟩) {} (Demo.start .interpreted none))
      (applyValue { trace := true } Demo.noHost 3 (.function ⟨0, "make_one"⟩) {}
        (Demo.start (.ofResult ((Specializer.ofSettings {}).compile Demo.makeOne).result)
          (some (.ofSettings {})))) := by
  have hhost : Demo.noHost.Respects Demo.definitions.alignment.toAlignment :=
    fun _ _ _ _ _ => .raise _
  refine ⟨by decide +kernel, call_engine_independent Demo.definitions hhost (by rfl) 3 _ _
    (Definitions.Matches.mk rfl ?_ rfl rfl ?_ ?_)⟩
  · rintro ⟨_ | i, name⟩
    · exact .some ⟨rfl, rfl, rfl, .inl rfl, trivial, Specializer.compile_serves _ _⟩
    · exact .none
  · rintro s ⟨⟩
  · rintro s ⟨⟩ entry ⟨⟩

end Tiered
