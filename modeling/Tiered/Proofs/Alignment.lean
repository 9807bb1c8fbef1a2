import Tiered.Proofs.MachineCoupling

/-! Runs in two worlds side by side. An alignment relates worlds that running code cannot tell
apart; two runs of the same code from aligned worlds end alike. -/
namespace Tiered

section Alike

variable {σ α β : Type}

/-- From related states, `x` and `y` end in the same way. -/
def Alike (rel : σ → σ → Prop) (x y : Run σ α) : Prop :=
  ∀ s t, rel s t → SameEnd Eq rel (x s) (y t)

namespace Alike

variable {rel : σ → σ → Prop} {x y : Run σ α} {f g : α → Run σ β}

theorem pure (a : α) : Alike rel (Pure.pure a) (Pure.pure a) :=
  Coupled.pure a

theorem raise (e : Failure) : Alike rel (Run.raise e : Run σ α) (Run.raise e) :=
  Coupled.raise rfl

theorem ofExcept (r : Except Failure α) : Alike rel (Run.ofExcept r) (Run.ofExcept r) := by
  cases r with
  | ok a => exact .pure a
  | error e => exact .raise e

theorem bind (hx : Alike rel x y) (hf : ∀ a, Alike rel (f a) (g a)) :
    Alike rel (x >>= f) (y >>= g) :=
  Coupled.bind hx hf

theorem flip (hx : Alike rel x y) : Alike (fun s t => rel t s) y x := by
  intro s t h
  have he := hx t s h
  generalize x t = r, y s = q at he ⊢
  cases he with
  | ok h => exact .ok h
  | error he h => exact .error he.symm h

end Alike

end Alike

/-- A relation between worlds that running code keeps. Each engine may report its own progress, and
function values are made of definitions that the alignment admits. -/
structure Alignment where
  rel : World → World → Prop
  admits : FunctionDef → Prop
  readGlobal {v w : World} (h : rel v w) (f : FunctionRef) (slot : UInt16) :
    v.readGlobal f slot = w.readGlobal f slot
  writeGlobal {v w : World} (h : rel v w) (f : FunctionRef) (slot : UInt16) (x : Value) :
    rel (v.writeGlobal f slot x) (w.writeGlobal f slot x)
  allocClosure {fn : FunctionDef} (hf : admits fn) (f : FunctionRef) :
    Alike rel (World.allocClosure fn f) (World.allocClosure fn f)
  report_left {v w : World} {e : Event} (he : e.isProgress) (h : rel v w) : rel (v.emitEvent e) w
  report_right {v w : World} {e : Event} (he : e.isProgress) (h : rel v w) : rel v (w.emitEvent e)

namespace Alignment

variable (A : Alignment)

/-- Two calls under way in the same frame, in aligned worlds. -/
def Acts (a b : Activation) : Prop :=
  a.frame = b.frame ∧ A.rel a.world b.world

def Callers (call call' : Caller) : Prop :=
  ∀ f args, Alike A.rel (call f args) (call' f args)

/-- An alignment is a coupling in which both sides stop for the same reason, whatever it is. -/
def coupling : Coupling where
  rel := A.rel
  reasons := Eq
  admits := A.admits
  failure _ := rfl
  readGlobal h f slot := A.readGlobal h f slot
  writeGlobal h f slot x := A.writeGlobal h f slot x
  allocClosure hf f := A.allocClosure hf f
  report he h := A.report_left he (A.report_right he h)

theorem lenient : A.coupling.Lenient :=
  fun _ => rfl

theorem traces (settings settings' : ExecSettings) : A.coupling.Traces settings settings' :=
  .inr fun he h => ⟨A.report_left he h, A.report_right he h⟩

variable {A}

theorem alike_of_coupled {α : Type} {x y : Run Activation α}
    (h : ∀ n, Coupled Eq (A.coupling.Acts n) x y) : Alike A.Acts x y := by
  intro a b hab
  exact (h _ a b ⟨hab.1, rfl, hab.2⟩).mono id fun h => ⟨h.frame, h.world⟩

variable (A)

theorem lift {α : Type} {x y : Frame → Run World α} (h : ∀ frame, Alike A.rel (x frame) (y frame)) :
    Alike A.Acts (Activation.lift x) (Activation.lift y) :=
  alike_of_coupled fun _ => A.coupling.lift fun frame _ => h frame

theorem store (x : Ident) (v : Value) :
    Alike A.Acts (Activation.store x v) (Activation.store x v) :=
  alike_of_coupled fun _ => A.coupling.store (.inl A.lenient) v

theorem define {fn : FunctionDef} (hf : A.admits fn) :
    Alike A.Acts (Activation.lift fun frame => World.allocClosure fn frame.function)
      (Activation.lift fun frame => World.allocClosure fn frame.function) :=
  A.lift fun frame => A.allocClosure hf frame.function

def flip : Alignment where
  rel v w := A.rel w v
  admits := A.admits
  readGlobal h f slot := (A.readGlobal h f slot).symm
  writeGlobal h f slot x := A.writeGlobal h f slot x
  allocClosure hf f := (A.allocClosure hf f).flip
  report_left he h := A.report_right he h
  report_right he h := A.report_left he h

variable {A}

theorem Callers.flip {call call' : Caller} (h : A.Callers call call') : A.flip.Callers call' call :=
  fun f args => (h f args).flip

theorem Acts.flip {a b : Activation} (h : A.Acts a b) : A.flip.Acts b a :=
  ⟨h.1.symm, h.2⟩

theorem alike_of_flip {α : Type} {x y : Run Activation α} (h : Alike A.flip.Acts x y) :
    Alike A.Acts y x := by
  intro a b hab
  have he := h b a hab.flip
  generalize x b = r, y a = q at he ⊢
  cases he with
  | ok h => exact .ok ⟨h.1.symm, h.2⟩
  | error he h => exact .error he.symm ⟨h.1.symm, h.2⟩

end Alignment

theorem FunctionDef.interpret_alike (A : Alignment) {call call' : Caller}
    (hc : A.Callers call call') (settings settings' : ExecSettings) {fn : FunctionDef}
    (hd : ∀ g ∈ fn.defs, A.admits g) :
    Alike A.Acts (fn.interpret settings call) (fn.interpret settings' call') :=
  Alignment.alike_of_coupled fun _ =>
    interpret_coupled A.coupling hc (A.traces settings settings') (.inl A.lenient) hd

theorem Machine.finish_alike (A : Alignment) {call call' : Caller} (hc : A.Callers call call')
    {settings settings' : ExecSettings} {p : Lowered}
    (hp : ∀ fn ∈ p.functions.entries, A.admits fn) {m : Machine} {a b : Activation}
    {r : EStateM.Result Stop Activation Value} (hr : finish settings call p m a = some r)
    (hab : A.Acts a b) :
    ∃ r', finish settings' call' p m b = some r' ∧ SameEnd Eq A.Acts r r' := by
  obtain ⟨r', hr', he⟩ := finish_coupled A.lenient hc hp (A.traces settings settings') m a r hr b
    ⟨hab.1, rfl, hab.2⟩
  exact ⟨r', hr', he.mono id fun h => ⟨h.frame, h.world⟩⟩

theorem Lowered.execute_alike (A : Alignment) {call call' : Caller} (hc : A.Callers call call')
    (settings settings' : ExecSettings) {p : Lowered}
    (hp : ∀ fn ∈ p.functions.entries, A.admits fn) :
    Alike A.Acts (p.execute settings call) (p.execute settings' call') := by
  intro a b h
  unfold Lowered.execute
  cases hr : Machine.finish settings call p {} a with
  | some r =>
    obtain ⟨r', hr', he⟩ := Machine.finish_alike A hc hp hr h
    rw [hr']
    exact he
  | none =>
    have hn : Machine.finish settings' call' p {} b = none := by
      cases hr' : Machine.finish settings' call' p {} b with
      | none => rfl
      | some r' =>
        obtain ⟨r, hs, -⟩ := Machine.finish_alike A.flip hc.flip hp hr' h.flip
        rw [hr] at hs
        cases hs
    rw [hn]
    exact .error rfl h

end Tiered
