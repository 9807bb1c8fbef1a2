import Tiered.Exec.Machine
import Tiered.Proofs.Failures

/-! Two runs side by side. A coupling is a relation between worlds that every action of running code
keeps, with the reasons a run may stop for; the same body, run from related worlds, ends in the same
way. -/
namespace Tiered

section Ends

variable {σ α β : Type}

/-- Two runs that end in the same way: with the same value, or for reasons that `reasons` relates.
The states they leave are related by `rel`. -/
inductive SameEnd (reasons : Stop → Stop → Prop) (rel : σ → σ → Prop) :
    EStateM.Result Stop σ α → EStateM.Result Stop σ α → Prop
  | ok {a : α} {s t : σ} (h : rel s t) : SameEnd reasons rel (.ok a s) (.ok a t)
  | error {e e' : Stop} {s t : σ} (he : reasons e e') (h : rel s t) :
      SameEnd reasons rel (.error e s) (.error e' t)

theorem SameEnd.mono {reasons reasons' : Stop → Stop → Prop} {rel rel' : σ → σ → Prop}
    {r q : EStateM.Result Stop σ α} (h : SameEnd reasons rel r q)
    (hreasons : ∀ {e e'}, reasons e e' → reasons' e e') (hrel : ∀ {s t}, rel s t → rel' s t) :
    SameEnd reasons' rel' r q := by
  cases h with
  | ok h => exact .ok (hrel h)
  | error he h => exact .error (hreasons he) (hrel h)

/-- From related states, `x` and `y` end in the same way. -/
def Coupled (reasons : Stop → Stop → Prop) (rel : σ → σ → Prop) (x y : Run σ α) : Prop :=
  ∀ s t, rel s t → SameEnd reasons rel (x s) (y t)

namespace Coupled

variable {reasons : Stop → Stop → Prop} {rel : σ → σ → Prop} {x y : Run σ α} {f g : α → Run σ β}

theorem pure (a : α) : Coupled reasons rel (Pure.pure a) (Pure.pure a) :=
  fun _ _ h => .ok h

theorem raise {e : Failure} (he : reasons (.raised e) (.raised e)) :
    Coupled reasons rel (Run.raise e : Run σ α) (Run.raise e) :=
  fun _ _ h => .error he h

theorem ofExcept {r : Except Failure α}
    (hr : Yields (fun _ => True) (fun e => reasons (.raised e) (.raised e)) r) :
    Coupled reasons rel (Run.ofExcept r) (Run.ofExcept r) := by
  cases r with
  | ok a => exact .pure a
  | error e => exact .raise hr

theorem bind (hx : Coupled reasons rel x y) (hf : ∀ a, Coupled reasons rel (f a) (g a)) :
    Coupled reasons rel (x >>= f) (y >>= g) := by
  intro s t h
  change SameEnd reasons rel (EStateM.bind x f s) (EStateM.bind y g t)
  unfold EStateM.bind
  have he := hx s t h
  generalize x s = r, y t = q at he ⊢
  cases he with
  | ok h => exact hf _ _ _ h
  | error he h => exact .error he h

theorem map (hx : Coupled reasons rel x y) (k : α → β) :
    Coupled reasons rel (k <$> x) (k <$> y) := by
  intro s t h
  have he := hx s t h
  change SameEnd reasons rel (EStateM.map k x s) (EStateM.map k y t)
  unfold EStateM.map
  generalize x s = r, y t = q at he ⊢
  cases he with
  | ok h => exact .ok h
  | error he h => exact .error he h

theorem get_bind {k k' : σ → Run σ β} (h : ∀ s t, rel s t → SameEnd reasons rel (k s s) (k' t t)) :
    Coupled reasons rel (get >>= k) (get >>= k') :=
  h

end Coupled

theorem eachUntil_coupled {reasons : Stop → Stop → Prop} {rel : σ → σ → Prop}
    {f g : Value → Run σ (Option Value)} (h : ∀ v, Coupled reasons rel (f v) (g v))
    (items : List Value) : Coupled reasons rel (eachUntil f items) (eachUntil g items) := by
  induction items with
  | nil => exact .pure none
  | cons v rest ih =>
    rw [eachUntil, eachUntil]
    apply (h v).bind
    intro result
    cases result with
    | none => exact ih
    | some result => exact .pure _

end Ends

/-- Events by which an engine reports its own progress. -/
def Event.isProgress : Event → Bool
  | statement _ | instruction _ _ _ _ _ | makeFunction _ _ => true
  | _ => false

/-- A relation between worlds that running code keeps, and the reasons it may stop for: failures of
the program are among them, internal errors need not be. Function values are made of definitions
that the coupling admits. -/
structure Coupling where
  rel : World → World → Prop
  reasons : Stop → Stop → Prop
  admits : FunctionDef → Prop
  failure {e : Failure} (he : ∀ c, e ≠ .internal c) : reasons (.raised e) (.raised e)
  readGlobal {v w : World} (h : rel v w) (f : FunctionRef) (slot : UInt16) :
    v.readGlobal f slot = w.readGlobal f slot
  writeGlobal {v w : World} (h : rel v w) (f : FunctionRef) (slot : UInt16) (x : Value) :
    rel (v.writeGlobal f slot x) (w.writeGlobal f slot x)
  allocClosure {fn : FunctionDef} (hf : admits fn) (f : FunctionRef) :
    Coupled reasons rel (World.allocClosure fn f) (World.allocClosure fn f)
  report {v w : World} {e : Event} (he : e.isProgress) (h : rel v w) :
    rel (v.emitEvent e) (w.emitEvent e)

namespace Coupling

variable (C : Coupling)

def Callers (call call' : Caller) : Prop :=
  ∀ f args, Coupled C.reasons C.rel (call f args) (call' f args)

/-- Two calls under way in the same frame, which has `n` slots, in related worlds. -/
structure Acts (n : Nat) (a b : Activation) : Prop where
  frame : a.frame = b.frame
  slots : a.frame.locals.size = n
  world : C.rel a.world b.world

def Lenient : Prop :=
  ∀ e, C.reasons (.raised e) (.raised e)

/-- Either side may report its progress alone. -/
def Loose : Prop :=
  ∀ {v w : World} {e : Event}, e.isProgress → C.rel v w →
    C.rel (v.emitEvent e) w ∧ C.rel v (w.emitEvent e)

/-- Both sides report their progress, or neither, unless that makes no difference. -/
def Traces (settings settings' : ExecSettings) : Prop :=
  settings.trace = settings'.trace ∨ C.Loose

/-- In a frame of `n` slots, the local ones among the identifiers `xs` are in range and values can
be bound to `targets`. Nothing is asked where internal errors are reasons to stop. -/
def Allows (n : Nat) (xs : List Ident) (targets : List Expr) : Prop :=
  C.Lenient ∨
    (∀ name slot, .localVar name slot ∈ xs → slot.toNat < n) ∧ ∀ t ∈ targets, t.isTarget

variable {C}

theorem Allows.mono {n : Nat} {xs ys : List Ident} {ts us : List Expr} (h : C.Allows n xs ts)
    (hy : ys ⊆ xs) (hu : us ⊆ ts) : C.Allows n ys us :=
  h.imp_right fun ⟨hx, ht⟩ => ⟨fun name slot hm => hx name slot (hy hm), fun t hm => ht t (hu hm)⟩

variable (C)

theorem ofExcept {σ α : Type} {rel : σ → σ → Prop} {r : Except Failure α}
    (h : ∀ c, r ≠ .error (.internal c)) :
    Coupled C.reasons rel (Run.ofExcept r) (Run.ofExcept r) :=
  .ofExcept (.of_ne_internal (fun _ he => C.failure he) h)

theorem lift {α : Type} {n : Nat} {x y : Frame → Run World α}
    (h : ∀ frame, frame.locals.size = n → Coupled C.reasons C.rel (x frame) (y frame)) :
    Coupled C.reasons (C.Acts n) (Activation.lift x) (Activation.lift y) := by
  rintro ⟨frame, v⟩ ⟨_, w⟩ ⟨rfl, hn, hw⟩
  unfold Activation.lift
  simp only
  have he := h frame hn v w hw
  generalize x frame v = r, y frame w = q at he ⊢
  cases he with
  | ok h => exact .ok ⟨rfl, hn, h⟩
  | error he h => exact .error he ⟨rfl, hn, h⟩

theorem load_yields {frame : Frame} {x : Ident}
    (hx : C.Allows frame.locals.size [x] []) (w : World) :
    Yields (fun _ => True) (fun e => C.reasons (.raised e) (.raised e)) (frame.load w x) := by
  rcases hx with hall | ⟨hslots, -⟩
  · cases frame.load w x with
    | ok v => trivial
    | error e => exact hall e
  · apply Yields.of_ne_internal fun _ he => C.failure he
    apply Frame.load_ne_internal
    rintro name slot rfl
    exact hslots name slot (List.mem_singleton_self _)

theorem emit {n : Nat} {e : Event} (he : e.isProgress) :
    Coupled C.reasons (C.Acts n) (Activation.emit e) (Activation.emit e) :=
  C.lift fun _ _ _ _ h => .ok (C.report he h)

/-- Reports of progress make no difference. -/
theorem announce {α : Type} {n : Nat} {settings settings' : ExecSettings}
    (ht : C.Traces settings settings') {e : Event} (he : e.isProgress)
    {k k' : Unit → Run Activation α} (h : Coupled C.reasons (C.Acts n) (k ()) (k' ())) :
    Coupled C.reasons (C.Acts n) (if settings.trace then Activation.emit e >>= k else k ())
      (if settings'.trace then Activation.emit e >>= k' else k' ()) := by
  rintro ⟨frame, v⟩ ⟨_, w⟩ ⟨rfl, hn, hw⟩
  have hboth : Coupled C.reasons (C.Acts n) (Activation.emit e >>= k) (Activation.emit e >>= k') :=
    (C.emit he).bind fun _ => h
  rcases ht with heq | hloose
  · rw [heq]
    split
    · exact hboth _ _ ⟨rfl, hn, hw⟩
    · exact h _ _ ⟨rfl, hn, hw⟩
  · cases settings.trace <;> cases settings'.trace
    · exact h _ _ ⟨rfl, hn, hw⟩
    · exact h _ ⟨frame, w.emitEvent e⟩ ⟨rfl, hn, (hloose he hw).2⟩
    · exact h ⟨frame, v.emitEvent e⟩ _ ⟨rfl, hn, (hloose he hw).1⟩
    · exact hboth _ _ ⟨rfl, hn, hw⟩

theorem storeLocal {n : Nat} {slot : UInt16} (hslot : C.Lenient ∨ slot.toNat < n) (x : Value) :
    Coupled C.reasons (C.Acts n) (Activation.storeLocal slot x) (Activation.storeLocal slot x) := by
  rintro ⟨frame, v⟩ ⟨_, w⟩ ⟨rfl, rfl, hw⟩
  have hy := Frame.writeLocal_yields x hslot
  unfold Activation.storeLocal
  simp only
  generalize frame.writeLocal slot x = r at hy ⊢
  cases r with
  | ok g => exact .ok ⟨rfl, hy, hw⟩
  | error e => exact .error hy ⟨rfl, rfl, hw⟩

theorem storeGlobal {n : Nat} (slot : UInt16) (x : Value) :
    Coupled C.reasons (C.Acts n) (Activation.storeGlobal slot x) (Activation.storeGlobal slot x) :=
  C.lift fun frame _ _ _ h => .ok (C.writeGlobal h frame.function slot x)

theorem store {n : Nat} {x : Ident} (hx : C.Allows n [x] [.ident x]) (v : Value) :
    Coupled C.reasons (C.Acts n) (Activation.store x v) (Activation.store x v) := by
  cases x with
  | universal name =>
    rcases hx with hall | ⟨-, ht⟩
    · exact .raise (hall _)
    · cases ht _ (List.mem_singleton_self _)
  | globalVar name slot => exact C.storeGlobal slot v
  | localVar name slot =>
    exact C.storeLocal (hx.imp_right fun h => h.1 name slot (List.mem_singleton_self _)) v

theorem define {n : Nat} {fn : FunctionDef} (hf : C.admits fn) :
    Coupled C.reasons (C.Acts n)
      (Activation.lift fun frame => World.allocClosure fn frame.function)
      (Activation.lift fun frame => World.allocClosure fn frame.function) :=
  C.lift fun frame _ => C.allocClosure hf frame.function

end Coupling

mutual

theorem Expr.eval_coupled (C : Coupling) {call call' : Caller} (hc : C.Callers call call')
    (frame : Frame) : ∀ e : Expr, C.Allows frame.locals.size e.idents [] →
    Coupled C.reasons C.rel (e.eval call frame) (e.eval call' frame)
  | .ident x, hx => by
    rw [Expr.eval, Expr.eval]
    apply Coupled.get_bind
    intro v w h
    have hload : frame.load w x = frame.load v x := by
      cases x <;> simp [Frame.load, Frame.loadGlobal, C.readGlobal h]
    rw [hload]
    exact Coupled.ofExcept (C.load_yields hx v) v w h
  | .int n, _ => by
    rw [Expr.eval, Expr.eval]
    exact .pure _
  | .str s, _ => by
    rw [Expr.eval, Expr.eval]
    exact .pure _
  | .binary op l r, hx => by
    rw [Expr.eval, Expr.eval]
    have hl := l.eval_coupled C hc frame (hx.mono (by simp [Expr.idents]) (by simp))
    have hr := r.eval_coupled C hc frame (hx.mono (by simp [Expr.idents]) (by simp))
    exact hl.bind fun a => hr.bind fun b => C.ofExcept (op.apply_ne_internal a b)
  | .call f args, hx => by
    rw [Expr.eval, Expr.eval]
    have hf := f.eval_coupled C hc frame (hx.mono (by simp [Expr.idents]) (by simp))
    have ha := evalArgs_coupled C hc frame args (hx.mono (by simp [Expr.idents]) (by simp))
    exact hf.bind fun a => ha.bind fun b => hc _ _
  | .list items, hx => by
    rw [Expr.eval, Expr.eval]
    have hi := evalItems_coupled C hc frame items (hx.mono (by simp [Expr.idents]) (by simp))
    exact hi.bind fun vs => .pure _

theorem evalArgs_coupled (C : Coupling) {call call' : Caller} (hc : C.Callers call call')
    (frame : Frame) : ∀ args : List Arg,
    C.Allows frame.locals.size (argIdents args) [] →
    Coupled C.reasons C.rel (evalArgs call frame args) (evalArgs call' frame args)
  | [], _ => by
    rw [evalArgs, evalArgs]
    exact .pure _
  | .positional e :: rest, hx | .keyword _ e :: rest, hx => by
    rw [evalArgs, evalArgs]
    have he := e.eval_coupled C hc frame (hx.mono (by simp [argIdents]) (by simp))
    have hr := evalArgs_coupled C hc frame rest (hx.mono (by simp [argIdents]) (by simp))
    exact he.bind fun v => hr.bind fun vs => .pure _

theorem evalItems_coupled (C : Coupling) {call call' : Caller} (hc : C.Callers call call')
    (frame : Frame) : ∀ es : List Expr,
    C.Allows frame.locals.size (itemIdents es) [] →
    Coupled C.reasons C.rel (evalItems call frame es) (evalItems call' frame es)
  | [], _ => by
    rw [evalItems, evalItems]
    exact .pure _
  | e :: rest, hx => by
    rw [evalItems, evalItems]
    have he := e.eval_coupled C hc frame (hx.mono (by simp [itemIdents]) (by simp))
    have hr := evalItems_coupled C hc frame rest (hx.mono (by simp [itemIdents]) (by simp))
    exact he.bind fun v => hr.bind fun vs => .pure _

end

mutual

theorem Expr.assign_coupled (C : Coupling) {n : Nat} : ∀ (target : Expr) (v : Value),
    C.Allows n target.idents [target] →
    Coupled C.reasons (C.Acts n) (target.assign v) (target.assign v)
  | .ident x, v, hx => by
    rw [Expr.assign]
    exact C.store hx v
  | .list targets, v, hx => by
    rw [Expr.assign]
    apply (C.ofExcept v.items_ne_internal).bind
    intro items
    split
    · apply assignAll_coupled C targets items
      apply hx.imp_right
      rintro ⟨hslots, ht⟩
      exact ⟨hslots, areTargets_iff.mp (ht _ (List.mem_singleton_self _))⟩
    · exact .raise (C.failure (by simp))
  | .int _, v, hx | .str _, v, hx | .binary _ _ _, v, hx | .call _ _, v, hx => by
    simp only [Expr.assign]
    rcases hx with hall | ⟨-, ht⟩
    · exact .raise (hall _)
    · cases ht _ (List.mem_singleton_self _)

theorem assignAll_coupled (C : Coupling) {n : Nat} : ∀ (targets : List Expr) (vs : List Value),
    C.Allows n (itemIdents targets) targets →
    Coupled C.reasons (C.Acts n) (assignAll targets vs) (assignAll targets vs)
  | [], vs, _ => by
    cases vs <;> exact .pure ()
  | target :: targets, [], _ => .pure ()
  | target :: targets, v :: vs, hx => by
    rw [assignAll]
    have ht := target.assign_coupled C v (hx.mono (by simp [itemIdents]) (by simp))
    have hr := assignAll_coupled C targets vs (hx.mono (by simp [itemIdents]) (by simp))
    exact ht.bind fun _ => hr

end

mutual

theorem Stmt.run_coupled (C : Coupling) {call call' : Caller} (hc : C.Callers call call')
    {settings settings' : ExecSettings} (ht : C.Traces settings settings') {n : Nat} :
    ∀ s : Stmt, C.Allows n s.idents s.targets →
    (∀ fn ∈ s.defs, C.admits fn) →
    Coupled C.reasons (C.Acts n) (s.run settings call) (s.run settings' call')
  | .ret none, _, _ => by
    rw [Stmt.run, Stmt.run]
    exact C.announce ht rfl (.pure _)
  | .ret (some e), hx, _ => by
    rw [Stmt.run, Stmt.run]
    have he := C.lift fun frame hn => e.eval_coupled C hc frame (hn ▸ hx)
    exact C.announce ht rfl (he.map _)
  | .eval e, hx, _ => by
    rw [Stmt.run, Stmt.run]
    have he := C.lift fun frame hn => e.eval_coupled C hc frame (hn ▸ hx)
    exact C.announce ht rfl (he.bind fun _ => .pure _)
  | .define target fn, hx, hd => by
    rw [Stmt.run, Stmt.run]
    have hf : C.admits fn := hd fn (by simp [Stmt.defs])
    exact C.announce ht rfl ((C.define hf).bind fun f => (C.store hx _).bind fun _ => .pure _)
  | .forEach target collection body, hx, hd => by
    rw [Stmt.run, Stmt.run]
    have hv := C.lift fun frame hn => collection.eval_coupled C hc frame
      (hn ▸ hx.mono (by simp [Stmt.idents]) (by simp))
    have ha (item : Value) := target.assign_coupled C item
      (hx.mono (by simp [Stmt.idents]) (by simp [Stmt.targets]))
    have hb := runBlock_coupled C hc ht body
      (hx.mono (by simp [Stmt.idents]) (by simp [Stmt.targets])) hd
    apply C.announce ht rfl
    apply hv.bind
    intro v
    apply (C.ofExcept v.items_ne_internal).bind
    exact eachUntil_coupled fun item => (ha item).bind fun _ => hb
  | .branch condition thenBody elseBody, hx, hd => by
    rw [Stmt.run, Stmt.run]
    have hv := C.lift fun frame hn => condition.eval_coupled C hc frame
      (hn ▸ hx.mono (by simp [Stmt.idents]) (by simp))
    have hthen := runBlock_coupled C hc ht thenBody
      (hx.mono (by simp [Stmt.idents]) (by simp [Stmt.targets])) fun fn h =>
        hd fn (by simp [Stmt.defs, h])
    have helse := runBlock_coupled C hc ht elseBody
      (hx.mono (by simp [Stmt.idents]) (by simp [Stmt.targets])) fun fn h =>
        hd fn (by simp [Stmt.defs, h])
    apply C.announce ht rfl
    apply hv.bind
    intro v
    split
    · exact hthen
    · exact helse
  | .assign target value, hx, _ => by
    rw [Stmt.run, Stmt.run]
    have hv := C.lift fun frame hn => value.eval_coupled C hc frame
      (hn ▸ hx.mono (by simp [Stmt.idents]) (by simp))
    have hs : C.Allows n [target] [.ident target] := hx.mono (by simp [Stmt.idents]) (List.Subset.refl _)
    exact C.announce ht rfl (hv.bind fun v => (C.store hs v).bind fun _ => .pure _)
  | .pass, _, _ => by
    rw [Stmt.run, Stmt.run]
    exact C.announce ht rfl (.pure _)

theorem runBlock_coupled (C : Coupling) {call call' : Caller} (hc : C.Callers call call')
    {settings settings' : ExecSettings} (ht : C.Traces settings settings') {n : Nat} :
    ∀ body : List Stmt,
    C.Allows n (blockIdents body) (blockTargets body) → (∀ fn ∈ blockDefs body, C.admits fn) →
    Coupled C.reasons (C.Acts n) (runBlock settings call body) (runBlock settings' call' body)
  | [], _, _ => by
    rw [runBlock, runBlock]
    exact .pure none
  | s :: rest, hx, hd => by
    rw [runBlock, runBlock]
    have hs := s.run_coupled C hc ht (hx.mono (by simp [blockIdents]) (by simp [blockTargets]))
      fun fn h => hd fn (by simp [blockDefs, h])
    have hr := runBlock_coupled C hc ht rest (hx.mono (by simp [blockIdents]) (by simp [blockTargets]))
      fun fn h => hd fn (by simp [blockDefs, h])
    apply hs.bind
    intro result
    cases result with
    | none => exact hr
    | some result => exact .pure _

end

/-- The body of a function runs in the same way on both sides. -/
theorem FunctionDef.interpret_coupled (C : Coupling) {call call' : Caller}
    (hc : C.Callers call call') {settings settings' : ExecSettings}
    (ht : C.Traces settings settings') {n : Nat} {fn : FunctionDef}
    (hx : C.Allows n fn.idents fn.targets) (hd : ∀ g ∈ fn.defs, C.admits g) :
    Coupled C.reasons (C.Acts n) (fn.interpret settings call) (fn.interpret settings' call') :=
  (runBlock_coupled C hc ht fn.body hx hd).bind fun _ => .pure _

end Tiered
