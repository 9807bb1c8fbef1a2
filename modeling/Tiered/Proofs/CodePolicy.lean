import Tiered.Proofs.CallCoupling

/-! Which code function values run. A policy admits definitions and says which code may run each of
them; specializers and the making of closures keep to it, and so does every run. -/
namespace Tiered

/-- Specialized code serves the definition that its unit was lowered from. -/
def Code.Serves (fn : FunctionDef) : Code → Prop
  | .interpreted => True
  | .specialized unit => fn.lower = .ok unit.code

namespace Specializer

theorem compile_serves (s : Specializer) (fn : FunctionDef) :
    (Code.ofResult (s.compile fn).result).Serves fn := by
  unfold compile
  split
  · trivial
  · cases hl : fn.lower with
    | error e => trivial
    | ok code =>
      simp only [Loader.load]
      cases code.verify (s.loader.nameFor code.unit) with
      | error e => trivial
      | ok summary => exact hl

/-- What a lookup gives is remembered, or it is compiled now. -/
theorem lookup_result (s : Specializer) (fn : FunctionDef) :
    (fn.id, (s.lookup fn).result) ∈ s.cache.entries ∨
      (s.lookup fn).result = (s.compile fn).result := by
  unfold lookup
  cases hfind : s.cache.find? fn.id with
  | some result =>
    obtain ⟨l₁, l₂, hl, -⟩ := List.lookup_eq_some_iff.mp hfind
    left
    rw [hl]
    exact List.mem_append_right _ List.mem_cons_self
  | none => exact .inr rfl

/-- A lookup remembers what it gives, and nothing else that is new. -/
theorem mem_lookup_after {s : Specializer} {fn : FunctionDef}
    {entry : FunctionId × Except Refusal VerifiedUnit}
    (h : entry ∈ (s.lookup fn).after.cache.entries) :
    entry = (fn.id, (s.lookup fn).result) ∨ entry ∈ s.cache.entries := by
  unfold lookup at h ⊢
  cases hfind : s.cache.find? fn.id with
  | some result =>
    rw [hfind] at h
    rcases List.mem_cons.mp h with rfl | h
    · exact .inl rfl
    · exact .inr (List.mem_filter.mp h).1
  | none =>
    rw [hfind] at h
    rcases List.mem_cons.mp h with rfl | h
    · exact .inl rfl
    · split at h
      · exact .inr h
      · exact .inr (List.dropLast_subset _ h)

end Specializer

theorem World.emitAll_eq (events : List Event) (w : World) :
    ∃ log, events.foldl emitEvent w = { w with log := log } := by
  induction events generalizing w with
  | nil => exact ⟨w.log, rfl⟩
  | cons e events ih =>
    obtain ⟨log, h⟩ := ih (w.emitEvent e)
    exact ⟨log, h⟩

def World.codeFor (w : World) (fn : FunctionDef) : Code :=
  w.specializer.elim .interpreted fun s => .ofResult (s.lookup fn).result

/-- Choosing code for a definition changes the specializer and what is reported, nothing else. -/
theorem World.chooseCode_eq (fn : FunctionDef) (w : World) :
    ∃ log, chooseCode fn w = .ok (w.codeFor fn)
      { w with specializer := w.specializer.map fun s => (s.lookup fn).after, log := log } := by
  unfold chooseCode codeFor
  cases hs : w.specializer with
  | none =>
    have hsame : w = { w with specializer := none, log := w.log } := by rw [← hs]
    exact ⟨w.log, congrArg (EStateM.Result.ok _) hsame⟩
  | some s =>
    obtain ⟨log, hlog⟩ := emitAll_eq (s.lookup fn).events
      { w with specializer := some (s.lookup fn).after }
    exact ⟨log, congrArg (EStateM.Result.ok _) hlog⟩

/-- A closure comes to stand at the end of the heap, and its global slots are empty. -/
theorem World.allocClosure_eq (fn : FunctionDef) (f : FunctionRef) (w : World) :
    ∃ log, allocClosure fn f w = .ok ⟨w.heap.size, fn.name⟩
      { w with
        heap := w.heap.push {
          fn := fn
          qualifiedName :=
            ((w.callable? f).map (·.qualifiedName)).getD f.name ++ "." ++ fn.name
          code := w.codeFor fn }
        specializer := w.specializer.map fun s => (s.lookup fn).after
        log := log } := by
  obtain ⟨log, hchoose⟩ := chooseCode_eq fn w
  refine ⟨log, ?_⟩
  change EStateM.bind (chooseCode fn) _ w = _
  unfold EStateM.bind
  rw [hchoose]
  rfl

/-- The definitions that function values may have, and the code that may run each of them: units
lowered from the definition are among it. Definitions that share an identity share their code. -/
structure CodePolicy where
  admits : FunctionDef → Prop
  runs : FunctionDef → Code → Prop
  serves {fn : FunctionDef} {code : Code} (h : admits fn) (hs : code.Serves fn) : runs fn code
  shared {f g : FunctionDef} {code : Code} (hf : admits f) (hg : admits g) (hid : f.id = g.id)
    (h : runs f code) : runs g code

namespace CodePolicy

variable (P : CodePolicy)

/-- What a specializer remembers may run every definition it is remembered for. -/
def Remembers (s : Specializer) : Prop :=
  ∀ entry ∈ s.cache.entries, ∀ fn, P.admits fn → fn.id = entry.1 → P.runs fn (Code.ofResult entry.2)

/-- Every function value keeps to the policy, and so will those that the specializer makes. -/
structure Sound (w : World) : Prop where
  heap : ∀ c ∈ w.heap, P.admits c.fn ∧ P.runs c.fn c.code
  specializer : ∀ s ∈ w.specializer, P.Remembers s

variable {P}

theorem Remembers.lookup {s : Specializer} (hs : P.Remembers s) {fn : FunctionDef}
    (hf : P.admits fn) :
    P.runs fn (Code.ofResult (s.lookup fn).result) ∧ P.Remembers (s.lookup fn).after := by
  have hruns : P.runs fn (Code.ofResult (s.lookup fn).result) := by
    rcases s.lookup_result fn with hmem | heq
    · exact hs _ hmem fn hf rfl
    · rw [heq]
      exact P.serves hf (s.compile_serves fn)
  refine ⟨hruns, ?_⟩
  intro entry he g hg hid
  rcases Specializer.mem_lookup_after he with rfl | he
  · exact P.shared hf hg hid.symm hruns
  · exact hs entry he g hg hid

variable (P)

/-- The code chosen for a definition may run it, and so may what is remembered from then on. -/
theorem chooseCode_spec {w : World} (hw : ∀ s ∈ w.specializer, P.Remembers s) {fn : FunctionDef}
    (hf : P.admits fn) :
    ∃ code s log, World.chooseCode fn w = .ok code { w with specializer := s, log := log } ∧
      P.runs fn code ∧ ∀ t ∈ s, P.Remembers t := by
  obtain ⟨log, hchoose⟩ := World.chooseCode_eq fn w
  refine ⟨_, _, log, hchoose, ?_⟩
  unfold World.codeFor
  cases hs : w.specializer with
  | none => exact ⟨P.serves hf trivial, nofun⟩
  | some s =>
    obtain ⟨hruns, hafter⟩ := (hw s hs).lookup hf
    exact ⟨hruns, by simpa using hafter⟩

variable {P}

namespace Sound

variable {w : World} (h : P.Sound w)
include h

theorem of_callable {f : FunctionRef} {c : Callable} (hc : w.callable? f = some c) :
    P.admits c.fn ∧ P.runs c.fn c.code :=
  h.heap c (Array.mem_of_getElem? hc)

theorem writeGlobal (f : FunctionRef) (slot : UInt16) (v : Value) :
    P.Sound (w.writeGlobal f slot v) := by
  refine ⟨?_, h.specializer⟩
  intro c hc
  obtain ⟨i, hi⟩ := Array.mem_iff_getElem?.mp hc
  unfold World.writeGlobal at hi
  rw [Array.getElem?_modify] at hi
  split at hi
  · obtain ⟨d, hd, rfl⟩ := Option.map_eq_some_iff.mp hi
    exact h.heap d (Array.mem_of_getElem? hd)
  · exact h.heap c (Array.mem_of_getElem? hi)

theorem allocClosure {fn : FunctionDef} (hf : P.admits fn) (f : FunctionRef) :
    ∃ g v, World.allocClosure fn f w = .ok g v ∧ P.Sound v ∧ v.depth = w.depth := by
  obtain ⟨code, s, log, hchoose, hruns, hs⟩ := P.chooseCode_spec h.specializer hf
  change ∃ g v, EStateM.bind (World.chooseCode fn) _ w = .ok g v ∧ _
  unfold EStateM.bind
  rw [hchoose]
  refine ⟨_, _, rfl, ⟨?_, hs⟩, rfl⟩
  intro c hc
  rcases Array.mem_push.mp hc with hc | rfl
  · exact h.heap c hc
  · exact ⟨hf, hruns⟩

end Sound

end CodePolicy

section Invariants

variable {σ α : Type}

/-- A run that ends where `inv` holds, with a value or for a reason that `stops` allows. -/
def EndsIn (inv : σ → Prop) (stops : Stop → Prop) : EStateM.Result Stop σ α → Prop
  | .ok _ s => inv s
  | .error reason s => stops reason ∧ inv s

theorem EndsIn.mono {inv inv' : σ → Prop} {stops : Stop → Prop} (h : ∀ s, inv s → inv' s) :
    ∀ {r : EStateM.Result Stop σ α}, EndsIn inv stops r → EndsIn inv' stops r
  | .ok _ s, hr => h s hr
  | .error _ s, hr => ⟨hr.1, h s hr.2⟩

/-- From wherever `inv` holds, `x` ends where it holds again. -/
def Keeps (inv : σ → Prop) (stops : Stop → Prop) (x : Run σ α) : Prop :=
  ∀ s, inv s → EndsIn inv stops (x s)

/-- From wherever `inv` holds, `x` and `y` have one and the same end, where it holds again. -/
def Agree (inv : σ → Prop) (stops : Stop → Prop) (x y : Run σ α) : Prop :=
  ∀ s, inv s → x s = y s ∧ EndsIn inv stops (x s)

variable {inv : σ → Prop} {stops : Stop → Prop} {x y : Run σ α}

theorem coupled_iff_agree :
    Coupled (fun e e' => e = e' ∧ stops e) (fun s t => s = t ∧ inv s) x y ↔
      Agree inv stops x y := by
  constructor
  · intro h s hs
    have hend := h s s ⟨rfl, hs⟩
    generalize x s = r, y s = q at hend ⊢
    cases hend with
    | ok h =>
      obtain ⟨rfl, hs⟩ := h
      exact ⟨rfl, hs⟩
    | error he h =>
      obtain ⟨rfl, he⟩ := he
      obtain ⟨rfl, hs⟩ := h
      exact ⟨rfl, he, hs⟩
  · rintro h s _ ⟨rfl, hs⟩
    obtain ⟨heq, hend⟩ := h s hs
    rw [← heq]
    generalize x s = r at hend ⊢
    cases r with
    | ok a t => exact .ok ⟨rfl, hend⟩
    | error e t => exact .error ⟨rfl, hend.1⟩ ⟨rfl, hend.2⟩

theorem coupled_iff_keeps :
    Coupled (fun e e' => e = e' ∧ stops e) (fun s t => s = t ∧ inv s) x x ↔
      Keeps inv stops x := by
  rw [coupled_iff_agree]
  exact forall₂_congr fun _ _ => and_iff_right rfl

end Invariants

namespace CodePolicy

variable (P : CodePolicy)

/-- Worlds that keep to the policy, with a number of active calls that `level` allows. -/
def At (level : Nat → Prop) (w : World) : Prop :=
  P.Sound w ∧ level w.depth

/-- Every run keeps to the policy: it is coupled with itself. -/
def coupling (level : Nat → Prop) (stops : Stop → Prop)
    (hstops : ∀ e, (∀ c, e ≠ .internal c) → stops (.raised e)) : Coupling where
  rel v w := v = w ∧ P.At level v
  reasons e e' := e = e' ∧ stops e
  admits := P.admits
  failure he := ⟨rfl, hstops _ he⟩
  readGlobal h f slot := by rw [h.1]
  writeGlobal h f slot x := ⟨by rw [h.1], h.2.1.writeGlobal f slot x, h.2.2⟩
  allocClosure hf f := by
    rintro v _ ⟨rfl, hv, hlevel⟩
    obtain ⟨g, w, hw, hsound, hdepth⟩ := hv.allocClosure hf f
    rw [hw]
    exact .ok ⟨rfl, hsound, hdepth ▸ hlevel⟩
  report _ h := ⟨by rw [h.1], ⟨h.2.1.heap, h.2.1.specializer⟩, h.2.2⟩

def passage {outer inner : Nat → Prop} {stops : Stop → Prop}
    (hstops : ∀ e, (∀ c, e ≠ .internal c) → stops (.raised e)) {limit : Nat}
    (henter : ∀ n, outer n → n < limit → inner (n + 1)) (hleave : ∀ n, inner n → outer (n - 1))
    (hbinds : (∀ e, stops (.raised e)) ∨
      ∀ fn, P.admits fn → fn.params.length ≤ fn.localCount.toNat) :
    Passage (P.coupling outer stops hstops) (P.coupling inner stops hstops) limit where
  partners c d := c = d ∧ P.admits c.fn ∧ P.runs c.fn c.code
  fn_eq h := congrArg Callable.fn h.1
  binds h := hbinds.imp (fun hall e => ⟨rfl, hall e⟩) fun hall => hall _ h.2.1
  callable {v w} h f := by
    obtain ⟨rfl, hv, -⟩ := h
    cases hc : v.callable? f with
    | none => exact .none
    | some c => exact .some ⟨rfl, hv.of_callable hc⟩
  depth_eq h := by rw [h.1]
  enter h hd := ⟨by rw [h.1], ⟨h.2.1.heap, h.2.1.specializer⟩, henter _ h.2.2 hd⟩
  leave h := ⟨by rw [h.1], ⟨h.2.1.heap, h.2.1.specializer⟩, hleave _ h.2.2⟩
  reasons h := h
  print h line := ⟨by rw [h.1], ⟨h.2.1.heap, h.2.1.specializer⟩, h.2.2⟩
  callBuiltin h _ _ := ⟨by rw [h.1], ⟨h.2.1.heap, h.2.1.specializer⟩, h.2.2⟩
  callFunction h hp := ⟨by rw [h.1, hp.1], ⟨h.2.1.heap, h.2.1.specializer⟩, h.2.2⟩

end CodePolicy

end Tiered
