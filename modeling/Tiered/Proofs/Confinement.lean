import Tiered.Proofs.Failures

/-! Which function values running code gets hold of. A discipline is an invariant of the world and
a set of function values that code owns: from values that refer to owned ones only, code comes to
such values only, whatever its outcome. -/
namespace Tiered

namespace Value

mutual

/-- The function values that a value refers to: itself, or its elements at any depth. -/
def refs : Value → List FunctionRef
  | function f => [f]
  | list items => itemRefs items
  | none | bool _ | int _ | str _ | builtin _ => []

def itemRefs : List Value → List FunctionRef
  | [] => []
  | v :: rest => v.refs ++ itemRefs rest

end

theorem mem_itemRefs {f : FunctionRef} {items : List Value} :
    f ∈ itemRefs items ↔ ∃ v ∈ items, f ∈ v.refs := by
  induction items with
  | nil => simp [itemRefs]
  | cons v rest ih => simp [itemRefs, ih]

/-- A value refers to function values at owned places only. -/
def Within (owns : Nat → Prop) (v : Value) : Prop :=
  ∀ f ∈ v.refs, owns f.index

variable {owns : Nat → Prop}

theorem within_of_refs_eq_nil {v : Value} (h : v.refs = []) : v.Within owns := by
  simp [Within, h]

theorem within_function {f : FunctionRef} : (function f).Within owns ↔ owns f.index := by
  simp [Within, refs]

theorem within_list {items : List Value} :
    (list items).Within owns ↔ ∀ v ∈ items, v.Within owns := by
  simp only [Within, refs, mem_itemRefs]
  exact ⟨fun h v hv f hf => h f ⟨v, hv, hf⟩, fun h f ⟨v, hv, hf⟩ => h v hv f hf⟩

theorem ofExact_within (n : Int) : Yields (Within owns) (fun _ => True) (ofExact n) := by
  unfold ofExact
  split
  · exact within_of_refs_eq_nil rfl
  · trivial

theorem add_within {a b : Value} (ha : a.Within owns) (hb : b.Within owns) :
    Yields (Within owns) (fun _ => True) (a.add b) := by
  unfold add
  split
  · exact ofExact_within _
  · exact within_of_refs_eq_nil rfl
  · refine within_list.mpr fun v hv => ?_
    rcases List.mem_append.mp hv with hv | hv
    · exact within_list.mp ha v hv
    · exact within_list.mp hb v hv
  · trivial

theorem binary_within (op : BinaryOp) {a b : Value} (ha : a.Within owns) (hb : b.Within owns) :
    Yields (Within owns) (fun _ => True) (op.apply a b) := by
  unfold BinaryOp.apply
  split
  · exact add_within ha hb
  · exact ofExact_within _
  · exact ofExact_within _
  · exact within_of_refs_eq_nil rfl
  · exact within_of_refs_eq_nil rfl
  · exact within_of_refs_eq_nil rfl
  · trivial

theorem items_within {v : Value} (hv : v.Within owns) :
    Yields (fun items => ∀ x ∈ items, x.Within owns) (fun _ => True) v.items := by
  cases v with
  | list items => exact within_list.mp hv
  | none | bool _ | int _ | str _ | function _ | builtin _ => trivial

end Value

/-- A frame of an owned function value, whose slots refer to owned ones only. -/
structure Frame.Within (owns : Nat → Prop) (frame : Frame) : Prop where
  function : owns frame.function.index
  locals : ∀ v, some v ∈ frame.locals → v.Within owns

structure Arguments.Within (owns : Nat → Prop) (args : Arguments) : Prop where
  positional : ∀ v ∈ args.positional, v.Within owns
  keywords : ∀ a ∈ args.keywords, a.2.Within owns

namespace Frame

variable {owns : Nat → Prop} {frame : Frame}

theorem loadLocal_within (h : frame.Within owns) (slot : UInt16) (name : String) :
    Yields (Value.Within owns) (fun _ => True) (frame.loadLocal slot name) := by
  unfold loadLocal readLocal
  cases hs : frame.locals[slot.toNat]? with
  | none => trivial
  | some r =>
    cases r with
    | none => trivial
    | some v => exact h.locals v (Array.mem_of_getElem? hs)

theorem writeLocal_within (h : frame.Within owns) (slot : UInt16) {v : Value}
    (hv : v.Within owns) :
    Yields (Frame.Within owns) (fun _ => True) (frame.writeLocal slot v) := by
  unfold writeLocal
  split
  · refine ⟨h.function, fun u hu => ?_⟩
    rcases Array.mem_or_eq_of_mem_setIfInBounds hu with hu | hu
    · exact h.locals u hu
    · obtain rfl := Option.some.inj hu
      exact hv
  · trivial

theorem bindPositional_within (h : frame.Within owns) (slot : Nat) {args : List Value}
    (ha : ∀ v ∈ args, v.Within owns) :
    Yields (Frame.Within owns) (fun _ => True) (frame.bindPositional slot args) := by
  induction args generalizing frame slot with
  | nil => exact h
  | cons v rest ih =>
    have hv := writeLocal_within h (UInt16.ofNat slot) (ha v List.mem_cons_self)
    exact hv.bind fun frame hframe =>
      ih hframe (slot + 1) fun u hu => ha u (List.mem_cons_of_mem _ hu)

theorem bindKeyword_within (h : frame.Within owns) (fn : FunctionDef) (name : String) {v : Value}
    (hv : v.Within owns) :
    Yields (Frame.Within owns) (fun _ => True) (frame.bindKeyword fn name v) := by
  unfold bindKeyword
  split
  · trivial
  · rename_i i _
    simp only
    cases frame.readLocal (UInt16.ofNat i) with
    | error e => trivial
    | ok bound =>
      cases bound with
      | none => exact writeLocal_within h _ hv
      | some _ => trivial

theorem bindKeywords_within (h : frame.Within owns) (fn : FunctionDef)
    {args : List (String × Value)} (ha : ∀ a ∈ args, a.2.Within owns) :
    Yields (Frame.Within owns) (fun _ => True) (frame.bindKeywords fn args) := by
  induction args generalizing frame with
  | nil => exact h
  | cons a rest ih =>
    have hv := bindKeyword_within h fn a.1 (ha a List.mem_cons_self)
    exact hv.bind fun frame hframe => ih hframe fun b hb => ha b (List.mem_cons_of_mem _ hb)

end Frame

theorem FunctionDef.bind_within {owns : Nat → Prop} (fn : FunctionDef) {f : FunctionRef}
    (hf : owns f.index) {args : Arguments} (ha : args.Within owns) :
    Yields (Frame.Within owns) (fun _ => True) (fn.bind f args) := by
  have hblank : (Frame.blank f fn).Within owns :=
    ⟨hf, fun v hv => by simp [Frame.blank] at hv⟩
  unfold FunctionDef.bind
  split
  · trivial
  · apply (Frame.bindPositional_within hblank 0 ha.positional).bind
    intro frame hframe
    apply (Frame.bindKeywords_within hframe fn ha.keywords).bind
    intro frame hframe
    cases frame.checkBound fn 0 fn.params with
    | error e => trivial
    | ok _ => exact hframe

section Runs

variable {σ α β : Type}

/-- A run that ended where `inv` holds, and with a value, if with one, of which `post` holds. -/
def LeavesIn (inv : σ → Prop) (post : α → Prop) : EStateM.Result Stop σ α → Prop
  | .ok a s => post a ∧ inv s
  | .error _ s => inv s

/-- From wherever `inv` holds, `x` ends where it holds again, and its value satisfies `post`. -/
def Confines (inv : σ → Prop) (post : α → Prop) (x : Run σ α) : Prop :=
  ∀ s, inv s → LeavesIn inv post (x s)

namespace Confines

variable {inv : σ → Prop} {p : α → Prop} {q : β → Prop} {x : Run σ α}

theorem pure {a : α} (h : p a) : Confines inv p (Pure.pure a) :=
  fun _ hs => ⟨h, hs⟩

theorem raise (e : Failure) : Confines inv p (Run.raise e) :=
  fun _ hs => hs

theorem ofExcept {r : Except Failure α} (hr : Yields p (fun _ => True) r) :
    Confines inv p (Run.ofExcept r) := by
  cases r with
  | ok a => exact .pure hr
  | error e => exact .raise e

theorem bind {f : α → Run σ β} (hx : Confines inv p x) (hf : ∀ a, p a → Confines inv q (f a)) :
    Confines inv q (x >>= f) := by
  intro s hs
  have he := hx s hs
  change LeavesIn inv q (EStateM.bind x f s)
  unfold EStateM.bind
  generalize x s = r at he ⊢
  cases r with
  | ok a t => exact hf a he.1 t he.2
  | error e t => exact he

theorem map {k : α → β} (hx : Confines inv p x) (hk : ∀ a, p a → q (k a)) :
    Confines inv q (k <$> x) := by
  intro s hs
  have he := hx s hs
  change LeavesIn inv q (EStateM.map k x s)
  unfold EStateM.map
  generalize x s = r at he ⊢
  cases r with
  | ok a t => exact ⟨hk a he.1, he.2⟩
  | error e t => exact he

theorem get_bind {k : σ → Run σ β} (h : ∀ s, inv s → LeavesIn inv q (k s s)) :
    Confines inv q (get >>= k) :=
  h

end Confines

theorem eachUntil_confines {inv : σ → Prop} {p : Value → Prop} {q : Option Value → Prop}
    (hnone : q none) {f : Value → Run σ (Option Value)} (h : ∀ v, p v → Confines inv q (f v))
    {items : List Value} (hi : ∀ v ∈ items, p v) : Confines inv q (eachUntil f items) := by
  induction items with
  | nil => exact .pure hnone
  | cons v rest ih =>
    rw [eachUntil]
    apply (h v (hi v List.mem_cons_self)).bind
    intro result hresult
    cases result with
    | none => exact ih fun u hu => hi u (List.mem_cons_of_mem _ hu)
    | some result => exact .pure hresult

end Runs

namespace World

def settle {α : Type} (w : World) (x : Run World α) : World :=
  match x w with
  | .ok _ v | .error _ v => v

theorem settle_of_ok {α : Type} {w v : World} {x : Run World α} {a : α} (h : x w = .ok a v) :
    w.settle x = v := by
  rw [settle, h]

end World

theorem Confines.settle {α : Type} {inv : World → Prop} {post : α → Prop} {x : Run World α}
    (hx : Confines inv post x) {w : World} (hw : inv w) : inv (w.settle x) := by
  have hend := hx w hw
  unfold World.settle
  generalize x w = r at hend ⊢
  cases r with
  | ok a v => exact hend.2
  | error e v => exact hend

/-- What code can define is admitted, and the constants of a unit refer to owned function values
only. -/
def Code.Keeps (admits : FunctionDef → Prop) (owns : Nat → Prop) (fn : FunctionDef) : Code → Prop
  | .interpreted => ∀ g ∈ fn.defs, admits g
  | .specialized unit =>
    (∀ g ∈ unit.code.functions.entries, admits g) ∧
      ∀ v ∈ unit.code.unit.constants, v.Within owns

/-- An invariant of the world that running code keeps, which depends on heap and specializer alone,
and the places of the heap that the code owns. Closures are made of definitions that the discipline
admits. -/
structure Discipline where
  inv : World → Prop
  owns : Nat → Prop
  admits : FunctionDef → Prop
  same {v w : World} (h : inv v) (hheap : w.heap = v.heap) (hs : w.specializer = v.specializer) :
    inv w
  readGlobal {w : World} (h : inv w) {f : FunctionRef} (hf : owns f.index) {slot : UInt16}
    {v : Value} (hv : w.readGlobal f slot = some v) : v.Within owns
  writeGlobal {w : World} (h : inv w) {f : FunctionRef} (hf : owns f.index) (slot : UInt16)
    {v : Value} (hv : v.Within owns) : inv (w.writeGlobal f slot v)
  allocClosure {fn : FunctionDef} (hfn : admits fn) {f : FunctionRef} (hf : owns f.index) :
    Confines inv (fun g => owns g.index) (World.allocClosure fn f)
  callable {w : World} (h : inv w) {f : FunctionRef} {c : Callable} (hc : w.callable? f = some c) :
    c.code.Keeps admits owns c.fn

namespace Discipline

variable (C : Discipline)

/-- Calls with values that refer to owned function values only end with such a value. -/
def Callers (call : Caller) : Prop :=
  ∀ f args, f.Within C.owns → args.Within C.owns →
    Confines C.inv (Value.Within C.owns) (call f args)

/-- A call of an owned function value under way. -/
structure Acts (a : Activation) : Prop where
  frame : a.frame.Within C.owns
  world : C.inv a.world

def Returns (r : Option Value) : Prop :=
  ∀ v, r = some v → v.Within C.owns

theorem returns_none : C.Returns none :=
  nofun

theorem returns_some {v : Value} (h : v.Within C.owns) : C.Returns (some v) := by
  rintro _ ⟨⟩
  exact h

theorem loadGlobal_within {frame : Frame} (hf : frame.Within C.owns) {w : World} (hw : C.inv w)
    (slot : UInt16) (name : String) :
    Yields (Value.Within C.owns) (fun _ => True) (frame.loadGlobal w slot name) := by
  unfold Frame.loadGlobal
  cases hv : w.readGlobal frame.function slot with
  | none => trivial
  | some v => exact C.readGlobal hw hf.function hv

theorem loadUniversal_within (name : String) :
    Yields (Value.Within C.owns) (fun _ => True) (loadUniversal name) := by
  unfold loadUniversal
  split
  · exact Value.within_of_refs_eq_nil rfl
  · trivial

theorem load_within {frame : Frame} (hf : frame.Within C.owns) {w : World} (hw : C.inv w)
    (x : Ident) : Yields (Value.Within C.owns) (fun _ => True) (frame.load w x) := by
  cases x with
  | universal name => exact C.loadUniversal_within name
  | globalVar name slot => exact C.loadGlobal_within hf hw slot name
  | localVar name slot => exact Frame.loadLocal_within hf slot name

theorem lift {α : Type} {p : α → Prop} {x : Frame → Run World α}
    (h : ∀ frame, frame.Within C.owns → Confines C.inv p (x frame)) :
    Confines C.Acts p (Activation.lift x) := by
  rintro ⟨frame, w⟩ ⟨hf, hw⟩
  have he := h frame hf w hw
  unfold Activation.lift
  simp only at he ⊢
  generalize x frame w = r at he ⊢
  cases r with
  | ok a t => exact ⟨he.1, hf, he.2⟩
  | error e t => exact ⟨hf, he⟩

theorem emit (e : Event) : Confines C.Acts (fun _ => True) (Activation.emit e) :=
  C.lift fun _ _ _ h => ⟨trivial, C.same h rfl rfl⟩

/-- Reports of progress make no difference. -/
theorem announce {α : Type} {p : α → Prop} (traced : Bool) (e : Event)
    {k : Unit → Run Activation α} (h : Confines C.Acts p (k ())) :
    Confines C.Acts p (if traced then Activation.emit e >>= k else k ()) := by
  cases traced with
  | false => exact h
  | true => exact (C.emit e).bind fun _ _ => h

theorem storeLocal (slot : UInt16) {v : Value} (hv : v.Within C.owns) :
    Confines C.Acts (fun _ => True) (Activation.storeLocal slot v) := by
  rintro ⟨frame, w⟩ ⟨hf, hw⟩
  have hy := Frame.writeLocal_within hf slot hv
  unfold Activation.storeLocal
  simp only at hy ⊢
  generalize frame.writeLocal slot v = r at hy ⊢
  cases r with
  | ok g => exact ⟨trivial, hy, hw⟩
  | error e => exact ⟨hf, hw⟩

theorem storeGlobal (slot : UInt16) {v : Value} (hv : v.Within C.owns) :
    Confines C.Acts (fun _ => True) (Activation.storeGlobal slot v) :=
  C.lift fun _ hf _ hw => ⟨trivial, C.writeGlobal hw hf.function slot hv⟩

theorem store (x : Ident) {v : Value} (hv : v.Within C.owns) :
    Confines C.Acts (fun _ => True) (Activation.store x v) := by
  cases x with
  | universal name => exact .raise _
  | globalVar name slot => exact C.storeGlobal slot hv
  | localVar name slot => exact C.storeLocal slot hv

theorem define {fn : FunctionDef} (hfn : C.admits fn) :
    Confines C.Acts (fun f => C.owns f.index)
      (Activation.lift fun frame => World.allocClosure fn frame.function) :=
  C.lift fun _ hf => C.allocClosure hfn hf.function

end Discipline

mutual

theorem Expr.eval_confines (C : Discipline) {call : Caller} (hc : C.Callers call) {frame : Frame}
    (hf : frame.Within C.owns) : ∀ e : Expr,
    Confines C.inv (Value.Within C.owns) (e.eval call frame)
  | .ident x => by
    rw [Expr.eval]
    apply Confines.get_bind
    intro w hw
    exact Confines.ofExcept (C.load_within hf hw x) w hw
  | .int n => by
    rw [Expr.eval]
    exact .pure (Value.within_of_refs_eq_nil rfl)
  | .str s => by
    rw [Expr.eval]
    exact .pure (Value.within_of_refs_eq_nil rfl)
  | .binary op l r => by
    rw [Expr.eval]
    apply (l.eval_confines C hc hf).bind
    intro a ha
    apply (r.eval_confines C hc hf).bind
    intro b hb
    exact .ofExcept (Value.binary_within op ha hb)
  | .call f args => by
    rw [Expr.eval]
    apply (f.eval_confines C hc hf).bind
    intro a ha
    exact (evalArgs_confines C hc hf args).bind fun b hb => hc a b ha hb
  | .list items => by
    rw [Expr.eval]
    exact (evalItems_confines C hc hf items).bind fun vs hvs => .pure (Value.within_list.mpr hvs)

theorem evalArgs_confines (C : Discipline) {call : Caller} (hc : C.Callers call) {frame : Frame}
    (hf : frame.Within C.owns) : ∀ args : List Arg,
    Confines C.inv (Arguments.Within C.owns) (evalArgs call frame args)
  | [] => by
    rw [evalArgs]
    exact .pure ⟨by simp, by simp⟩
  | .positional e :: rest => by
    rw [evalArgs]
    apply (e.eval_confines C hc hf).bind
    intro v hv
    apply (evalArgs_confines C hc hf rest).bind
    intro args hargs
    exact .pure ⟨List.forall_mem_cons.mpr ⟨hv, hargs.positional⟩, hargs.keywords⟩
  | .keyword name e :: rest => by
    rw [evalArgs]
    apply (e.eval_confines C hc hf).bind
    intro v hv
    apply (evalArgs_confines C hc hf rest).bind
    intro args hargs
    exact .pure ⟨hargs.positional, List.forall_mem_cons.mpr ⟨hv, hargs.keywords⟩⟩

theorem evalItems_confines (C : Discipline) {call : Caller} (hc : C.Callers call) {frame : Frame}
    (hf : frame.Within C.owns) : ∀ es : List Expr,
    Confines C.inv (fun vs => ∀ v ∈ vs, v.Within C.owns) (evalItems call frame es)
  | [] => by
    rw [evalItems]
    exact .pure (by simp)
  | e :: rest => by
    rw [evalItems]
    apply (e.eval_confines C hc hf).bind
    intro v hv
    apply (evalItems_confines C hc hf rest).bind
    intro vs hvs
    exact .pure (List.forall_mem_cons.mpr ⟨hv, hvs⟩)

end

mutual

theorem Expr.assign_confines (C : Discipline) : ∀ (target : Expr) {v : Value}, v.Within C.owns →
    Confines C.Acts (fun _ => True) (target.assign v)
  | .ident x, v, hv => by
    rw [Expr.assign]
    exact C.store x hv
  | .list targets, v, hv => by
    rw [Expr.assign]
    apply (Confines.ofExcept (Value.items_within hv)).bind
    intro items hitems
    split
    · exact assignAll_confines C targets hitems
    · exact .raise _
  | .int _, v, _ | .str _, v, _ | .binary _ _ _, v, _ | .call _ _, v, _ => by
    simp only [Expr.assign]
    exact .raise _

theorem assignAll_confines (C : Discipline) : ∀ (targets : List Expr) {vs : List Value},
    (∀ v ∈ vs, v.Within C.owns) → Confines C.Acts (fun _ => True) (assignAll targets vs)
  | [], vs, _ => by
    cases vs <;> exact .pure trivial
  | target :: targets, [], _ => .pure trivial
  | target :: targets, v :: vs, hv => by
    rw [assignAll]
    apply (target.assign_confines C (hv v List.mem_cons_self)).bind
    intro _ _
    exact assignAll_confines C targets fun u hu => hv u (List.mem_cons_of_mem _ hu)

end

mutual

theorem Stmt.run_confines (C : Discipline) {call : Caller} (hc : C.Callers call)
    (settings : ExecSettings) : ∀ s : Stmt, (∀ fn ∈ s.defs, C.admits fn) →
    Confines C.Acts C.Returns (s.run settings call)
  | .ret none, _ => by
    rw [Stmt.run]
    exact C.announce _ _ (.pure (C.returns_some (Value.within_of_refs_eq_nil rfl)))
  | .ret (some e), _ => by
    rw [Stmt.run]
    have he := C.lift fun frame hf => e.eval_confines C hc hf
    exact C.announce _ _ (he.map fun _ => C.returns_some)
  | .eval e, _ => by
    rw [Stmt.run]
    have he := C.lift fun frame hf => e.eval_confines C hc hf
    exact C.announce _ _ (he.bind fun _ _ => .pure C.returns_none)
  | .define target fn, hd => by
    rw [Stmt.run]
    apply C.announce
    apply (C.define (hd fn (by simp [Stmt.defs]))).bind
    intro f hf
    exact (C.store target (Value.within_function.mpr hf)).bind fun _ _ => .pure C.returns_none
  | .forEach target collection body, hd => by
    rw [Stmt.run]
    apply C.announce
    apply (C.lift fun frame hf => collection.eval_confines C hc hf).bind
    intro v hv
    apply (Confines.ofExcept (Value.items_within hv)).bind
    intro items hitems
    refine eachUntil_confines C.returns_none (fun item hitem => ?_) hitems
    exact (target.assign_confines C hitem).bind fun _ _ => runBlock_confines C hc settings body hd
  | .branch condition thenBody elseBody, hd => by
    rw [Stmt.run]
    have hthen := runBlock_confines C hc settings thenBody
      fun fn h => hd fn (by simp [Stmt.defs, h])
    have helse := runBlock_confines C hc settings elseBody
      fun fn h => hd fn (by simp [Stmt.defs, h])
    apply C.announce
    apply (C.lift fun frame hf => condition.eval_confines C hc hf).bind
    intro v _
    split
    · exact hthen
    · exact helse
  | .assign target value, _ => by
    rw [Stmt.run]
    apply C.announce
    apply (C.lift fun frame hf => value.eval_confines C hc hf).bind
    intro v hv
    exact (C.store target hv).bind fun _ _ => .pure C.returns_none
  | .pass, _ => by
    rw [Stmt.run]
    exact C.announce _ _ (.pure C.returns_none)

theorem runBlock_confines (C : Discipline) {call : Caller} (hc : C.Callers call)
    (settings : ExecSettings) : ∀ body : List Stmt, (∀ fn ∈ blockDefs body, C.admits fn) →
    Confines C.Acts C.Returns (runBlock settings call body)
  | [], _ => by
    rw [runBlock]
    exact .pure C.returns_none
  | s :: rest, hd => by
    rw [runBlock]
    apply (s.run_confines C hc settings fun fn h => hd fn (by simp [blockDefs, h])).bind
    intro result hresult
    cases result with
    | none => exact runBlock_confines C hc settings rest fun fn h => hd fn (by simp [blockDefs, h])
    | some result => exact .pure hresult

end

/-- The body of a function comes to owned function values only. -/
theorem FunctionDef.interpret_confines (C : Discipline) {call : Caller} (hc : C.Callers call)
    (settings : ExecSettings) {fn : FunctionDef} (hd : ∀ g ∈ fn.defs, C.admits g) :
    Confines C.Acts (Value.Within C.owns) (fn.interpret settings call) := by
  apply (runBlock_confines C hc settings fn.body hd).bind
  intro result hresult
  cases result with
  | none => exact .pure (Value.within_of_refs_eq_nil rfl)
  | some v => exact .pure (hresult v rfl)

end Tiered
