import Tiered.Proofs.Failures

/-! Running code as scripts. Whatever engine runs it, code does nothing but actions of its own and
calls, one after the other. So a property of runs that carries over from one of them to the next
holds of all code as soon as it holds of those actions and calls. -/
namespace Tiered

def Failure.refusesCall : Failure → Bool
  | callDepthExceeded _ => true
  | _ => false

/-- The result of an operation that makes no calls, so that none is refused. -/
abbrev CallFree {α : Type} (r : Except Failure α) : Prop :=
  Yields (fun _ => True) (fun e => e.refusesCall = false) r

section CallFree

theorem Value.items_callFree (v : Value) : CallFree v.items := by
  cases v <;> trivial

theorem Value.ofExact_callFree (n : Int) : CallFree (Value.ofExact n) := by
  unfold Value.ofExact
  split
  · trivial
  · rfl

theorem Value.add_callFree (u v : Value) : CallFree (u.add v) := by
  unfold Value.add
  split
  · exact Value.ofExact_callFree _
  · trivial
  · trivial
  · rfl

theorem BinaryOp.apply_callFree (op : BinaryOp) (u v : Value) : CallFree (op.apply u v) := by
  unfold BinaryOp.apply
  split
  · exact u.add_callFree v
  · exact Value.ofExact_callFree _
  · exact Value.ofExact_callFree _
  · trivial
  · trivial
  · trivial
  · rfl

theorem loadUniversal_callFree (name : String) : CallFree (loadUniversal name) := by
  unfold loadUniversal
  cases Builtin.universal? name with
  | none => rfl
  | some b => trivial

namespace Frame

variable (frame : Frame)

theorem readLocal_callFree (slot : UInt16) : CallFree (frame.readLocal slot) := by
  unfold readLocal
  split
  · trivial
  · rfl

theorem writeLocal_callFree (slot : UInt16) (v : Value) : CallFree (frame.writeLocal slot v) := by
  unfold writeLocal
  split
  · trivial
  · rfl

theorem loadLocal_callFree (slot : UInt16) (name : String) :
    CallFree (frame.loadLocal slot name) := by
  apply (frame.readLocal_callFree slot).bind
  intro found _
  cases found with
  | none => rfl
  | some v => trivial

theorem loadGlobal_callFree (w : World) (slot : UInt16) (name : String) :
    CallFree (frame.loadGlobal w slot name) := by
  unfold loadGlobal
  split
  · trivial
  · rfl

theorem load_callFree (w : World) (x : Ident) : CallFree (frame.load w x) := by
  cases x with
  | universal name => exact loadUniversal_callFree name
  | globalVar name slot => exact frame.loadGlobal_callFree w slot name
  | localVar name slot => exact frame.loadLocal_callFree slot name

theorem bindPositional_callFree (slot : Nat) (vs : List Value) :
    CallFree (frame.bindPositional slot vs) := by
  induction vs generalizing frame slot with
  | nil => trivial
  | cons v rest ih => exact (frame.writeLocal_callFree _ v).bind fun g _ => ih g (slot + 1)

theorem bindKeyword_callFree (fn : FunctionDef) (name : String) (v : Value) :
    CallFree (frame.bindKeyword fn name v) := by
  unfold bindKeyword
  split
  · rfl
  · apply (frame.readLocal_callFree _).bind
    intro found _
    split
    · rfl
    · exact frame.writeLocal_callFree _ v

theorem bindKeywords_callFree (fn : FunctionDef) (keywords : List (String × Value)) :
    CallFree (frame.bindKeywords fn keywords) := by
  induction keywords generalizing frame with
  | nil => trivial
  | cons keyword rest ih =>
    exact (frame.bindKeyword_callFree fn keyword.1 keyword.2).bind fun g _ => ih g

theorem checkBound_callFree (fn : FunctionDef) (slot : Nat) (params : List String) :
    CallFree (frame.checkBound fn slot params) := by
  induction params generalizing slot with
  | nil => trivial
  | cons param rest ih =>
    apply (frame.readLocal_callFree _).bind
    intro found _
    split
    · rfl
    · exact ih (slot + 1)

end Frame

theorem FunctionDef.bind_callFree (fn : FunctionDef) (f : FunctionRef) (args : Arguments) :
    CallFree (fn.bind f args) := by
  unfold FunctionDef.bind
  split
  · rfl
  · exact (Frame.bindPositional_callFree _ 0 args.positional).bind fun g _ =>
      (g.bindKeywords_callFree fn args.keywords).bind fun g' _ =>
        (g'.checkBound_callFree fn 0 fn.params).bind fun _ _ => trivial

namespace Builtin

theorem oneArg_callFree (name : String) (args : List Value) : CallFree (oneArg name args) := by
  unfold oneArg
  split
  · trivial
  · rfl

theorem length_callFree (args : List Value) : CallFree (length args) := by
  apply (oneArg_callFree "len" args).bind
  intro v _
  cases v <;> trivial

theorem rangeBound_callFree (v : Value) : CallFree (rangeBound v) := by
  unfold rangeBound
  split
  · trivial
  · rfl

theorem rangeList_callFree (args : List Value) : CallFree (rangeList args) := by
  unfold rangeList
  split
  · exact (rangeBound_callFree _).bind fun _ _ => trivial
  · exact (rangeBound_callFree _).bind fun _ _ => (rangeBound_callFree _).bind fun _ _ => trivial
  · rfl

end Builtin

end CallFree

/-- What code does by itself: it looks at the world, writes to the slots of function values, makes
new ones, reports events and prints lines. -/
inductive Action : {α : Type} → Run World α → Prop
  | look {α : Type} (q : World → Except Failure α) (h : ∀ w, CallFree (q w)) :
      Action fun w => Run.ofExcept (q w) w
  | write (f : FunctionRef) (slot : UInt16) (v : Value) :
      Action (modify fun w => w.writeGlobal f slot v)
  | close (fn : FunctionDef) (f : FunctionRef) : Action (World.allocClosure fn f)
  | emit (e : Event) : Action (World.emit e)
  | print (line : String) : Action (World.print line)

/-- Runs that depend on the settings and on a way to make calls. -/
abbrev Script (α : Type) := ExecSettings → Caller → Run World α

/-- The script consists of actions that `own` allows and of calls, one after the other. What comes
next may depend on what came before; a failure ends it. -/
inductive Scripted (own : (α : Type) → Run World α → Prop) : {α : Type} → Script α → Prop
  | act {α : Type} {x : Run World α} (h : own α x) : Scripted own fun _ _ => x
  | report (e : Event) :
      Scripted own fun settings _ => if settings.trace then World.emit e else pure ()
  | call (f : Value) (args : Arguments) : Scripted own fun _ call => call f args
  | bind {α β : Type} {x : Script α} {f : α → Script β} (hx : Scripted own x)
      (hf : ∀ a, Scripted own (f a)) :
      Scripted own fun settings call => x settings call >>= fun a => f a settings call

abbrev OwnScript {α : Type} (x : Script α) : Prop :=
  Scripted (fun _ x => Action x) x

namespace Scripted

variable {α : Type}

theorem ofExcept {r : Except Failure α} (h : CallFree r) :
    OwnScript fun _ _ => Run.ofExcept r :=
  .act (.look (fun _ => r) fun _ => h)

theorem pure (a : α) : OwnScript fun _ _ => Pure.pure a :=
  ofExcept (r := .ok a) trivial

end Scripted

mutual

theorem Expr.eval_scripted (frame : Frame) : ∀ e : Expr,
    OwnScript fun _ call => e.eval call frame
  | .ident x => by
    simp only [Expr.eval]
    exact .act (.look (fun w => frame.load w x) fun w => frame.load_callFree w x)
  | .int n => by
    simp only [Expr.eval]
    exact .pure _
  | .str s => by
    simp only [Expr.eval]
    exact .pure _
  | .binary op l r => by
    simp only [Expr.eval]
    exact (l.eval_scripted frame).bind fun a => (r.eval_scripted frame).bind fun b =>
      .ofExcept (op.apply_callFree a b)
  | .call f args => by
    simp only [Expr.eval]
    exact (f.eval_scripted frame).bind fun g => (evalArgs_scripted frame args).bind fun vs =>
      .call g vs
  | .list items => by
    simp only [Expr.eval]
    exact (evalItems_scripted frame items).bind fun vs => .pure _

theorem evalArgs_scripted (frame : Frame) : ∀ args : List Arg,
    OwnScript fun _ call => evalArgs call frame args
  | [] => by
    simp only [evalArgs]
    exact .pure _
  | .positional e :: rest | .keyword _ e :: rest => by
    simp only [evalArgs]
    exact (e.eval_scripted frame).bind fun v => (evalArgs_scripted frame rest).bind fun vs =>
      .pure _

theorem evalItems_scripted (frame : Frame) : ∀ es : List Expr,
    OwnScript fun _ call => evalItems call frame es
  | [] => by
    simp only [evalItems]
    exact .pure _
  | e :: rest => by
    simp only [evalItems]
    exact (e.eval_scripted frame).bind fun v => (evalItems_scripted frame rest).bind fun vs =>
      .pure _

end

namespace Activation

variable {α β : Type}

/-- A run inside a call, seen from the world: the frame goes in and comes out. -/
def detach (frame : Frame) (x : Run Activation α) : Run World (α × Frame) := fun w =>
  match x ⟨frame, w⟩ with
  | .ok a act => .ok (a, act.frame) act.world
  | .error e act => .error e act.world

theorem detach_bind (frame : Frame) (x : Run Activation α) (f : α → Run Activation β) :
    detach frame (x >>= f) = detach frame x >>= fun r => detach r.2 (f r.1) := by
  funext w
  change detach frame (EStateM.bind x f) w = EStateM.bind (detach frame x) _ w
  unfold detach EStateM.bind
  dsimp only
  cases x ⟨frame, w⟩ with
  | ok a act => rfl
  | error e act => rfl

theorem detach_lift (frame : Frame) (x : Frame → Run World α) :
    detach frame (lift x) = x frame >>= fun a => pure (a, frame) := by
  funext w
  change detach frame (lift x) w = EStateM.bind (x frame) _ w
  unfold detach lift EStateM.bind
  dsimp only
  cases x frame w with
  | ok a w => rfl
  | error e w => rfl

theorem detach_ofExcept (frame : Frame) (r : Except Failure α) :
    detach frame (Run.ofExcept r) = Run.ofExcept (r.map fun a => (a, frame)) := by
  cases r with
  | ok a => rfl
  | error e => rfl

theorem detach_storeLocal (frame : Frame) (slot : UInt16) (v : Value) :
    detach frame (storeLocal slot v) =
      Run.ofExcept ((frame.writeLocal slot v).map fun g => ((), g)) := by
  funext w
  unfold detach storeLocal
  dsimp only
  cases frame.writeLocal slot v with
  | ok g => rfl
  | error e => rfl

theorem enter_eq_detach (frame : Frame) (x : Run Activation α) :
    enter frame x = detach frame x >>= fun r => pure r.1 := by
  funext w
  change enter frame x w = EStateM.bind (detach frame x) _ w
  unfold enter detach EStateM.bind
  dsimp only
  cases x ⟨frame, w⟩ with
  | ok a act => rfl
  | error e act => rfl

end Activation

/-- Scripts of code that runs inside a call, in whatever frame. -/
def FrameScript {α : Type} (x : ExecSettings → Caller → Run Activation α) : Prop :=
  ∀ frame, OwnScript fun settings call => Activation.detach frame (x settings call)

namespace FrameScript

variable {α β : Type}

theorem bind {x : ExecSettings → Caller → Run Activation α}
    {f : α → ExecSettings → Caller → Run Activation β} (hx : FrameScript x)
    (hf : ∀ a, FrameScript (f a)) :
    FrameScript fun settings call => x settings call >>= fun a => f a settings call := by
  intro frame
  simp only [Activation.detach_bind]
  exact (hx frame).bind fun r => hf r.1 r.2

theorem lift {x : Frame → Script α} (h : ∀ frame, OwnScript (x frame)) :
    FrameScript fun settings call => Activation.lift fun frame => x frame settings call := by
  intro frame
  simp only [Activation.detach_lift]
  exact (h frame).bind fun a => .pure _

theorem ofExcept {r : Except Failure α} (h : CallFree r) :
    FrameScript fun _ _ => Run.ofExcept r := by
  intro frame
  simp only [Activation.detach_ofExcept]
  apply Scripted.ofExcept
  cases r with
  | ok a => trivial
  | error e => exact h

theorem pure (a : α) : FrameScript fun _ _ => Pure.pure a :=
  ofExcept (r := .ok a) trivial

theorem raise {e : Failure} (h : e.refusesCall = false) :
    FrameScript fun _ _ => (Run.raise e : Run Activation α) :=
  ofExcept (r := .error e) h

/-- What is read from the frame and the world. -/
theorem look {q : Activation → Except Failure α} (h : ∀ a, CallFree (q a)) :
    FrameScript fun _ _ a => Run.ofExcept (q a) a := by
  intro frame
  have heq : Activation.detach frame (fun a => Run.ofExcept (q a) a) =
      (fun w => Run.ofExcept (q ⟨frame, w⟩) w) >>= fun a => Pure.pure (a, frame) := by
    funext w
    change Activation.detach frame (fun a => Run.ofExcept (q a) a) w =
      EStateM.bind (fun w => Run.ofExcept (q ⟨frame, w⟩) w) _ w
    unfold Activation.detach EStateM.bind
    cases hq : q ⟨frame, w⟩ with
    | ok a => simp only [hq]; rfl
    | error e => simp only [hq]; rfl
  simp only [heq]
  exact (Scripted.act (.look (fun w => q ⟨frame, w⟩) fun w => h _)).bind fun a => .pure _

theorem emit (e : Event) : FrameScript fun _ _ => Activation.emit e :=
  lift fun _ => .act (.emit e)

theorem storeLocal (slot : UInt16) (v : Value) :
    FrameScript fun _ _ => Activation.storeLocal slot v := by
  intro frame
  simp only [Activation.detach_storeLocal]
  apply Scripted.ofExcept
  have h := frame.writeLocal_callFree slot v
  cases hw : frame.writeLocal slot v with
  | ok g => trivial
  | error e =>
    rw [hw] at h
    exact h

theorem storeGlobal (slot : UInt16) (v : Value) :
    FrameScript fun _ _ => Activation.storeGlobal slot v :=
  lift fun frame => .act (.write frame.function slot v)

theorem store (x : Ident) (v : Value) : FrameScript fun _ _ => Activation.store x v := by
  cases x with
  | universal name => exact raise rfl
  | globalVar name slot => exact storeGlobal slot v
  | localVar name slot => exact storeLocal slot v

theorem define (fn : FunctionDef) :
    FrameScript fun _ _ => Activation.lift fun frame => World.allocClosure fn frame.function :=
  lift fun frame => .act (.close fn frame.function)

/-- A report of progress, where the settings ask for it. -/
theorem announce (e : Event) {k : Unit → ExecSettings → Caller → Run Activation α}
    (h : FrameScript (k ())) :
    FrameScript fun settings call =>
      if settings.trace then Activation.emit e >>= fun u => k u settings call
      else k () settings call := by
  have hreport : FrameScript fun settings _ =>
      Activation.lift fun _ => if settings.trace then World.emit e else Pure.pure () :=
    lift fun _ => .report e
  have heq : (fun settings call => if settings.trace then
      Activation.emit e >>= fun u => k u settings call else k () settings call) =
      fun settings call => (Activation.lift fun _ =>
        if settings.trace then World.emit e else Pure.pure ()) >>= fun u => k u settings call := by
    funext settings call
    cases settings.trace with
    | true => rfl
    | false => rfl
  rw [heq]
  exact hreport.bind fun _ => h

theorem eachUntil {f : Value → ExecSettings → Caller → Run Activation (Option Value)}
    (h : ∀ v, FrameScript (f v)) (items : List Value) :
    FrameScript fun settings call => Tiered.eachUntil (fun v => f v settings call) items := by
  induction items with
  | nil => exact pure none
  | cons v rest ih =>
    simp only [Tiered.eachUntil]
    apply (h v).bind
    intro result
    cases result with
    | none => exact ih
    | some result => exact pure _

end FrameScript

mutual

theorem Expr.assign_scripted : ∀ (target : Expr) (v : Value),
    FrameScript fun _ _ => target.assign v
  | .ident x, v => by
    simp only [Expr.assign]
    exact .store x v
  | .list targets, v => by
    simp only [Expr.assign]
    apply (FrameScript.ofExcept v.items_callFree).bind
    intro items
    split
    · exact assignAll_scripted targets items
    · exact .raise rfl
  | .int _, v | .str _, v | .binary _ _ _, v | .call _ _, v => by
    simp only [Expr.assign]
    exact .raise rfl

theorem assignAll_scripted : ∀ (targets : List Expr) (vs : List Value),
    FrameScript fun _ _ => assignAll targets vs
  | [], vs => by
    cases vs <;> exact .pure ()
  | target :: targets, [] => .pure ()
  | target :: targets, v :: vs => by
    simp only [assignAll]
    exact (target.assign_scripted v).bind fun _ => assignAll_scripted targets vs

end

mutual

theorem Stmt.run_scripted : ∀ s : Stmt, FrameScript fun settings call => s.run settings call
  | .ret none => by
    simp only [Stmt.run]
    exact .announce _ (.pure _)
  | .ret (some e) => by
    simp only [Stmt.run, map_eq_pure_bind]
    exact .announce _ ((FrameScript.lift e.eval_scripted).bind fun v => .pure _)
  | .eval e => by
    simp only [Stmt.run]
    exact .announce _ ((FrameScript.lift e.eval_scripted).bind fun _ => .pure _)
  | .define target fn => by
    simp only [Stmt.run]
    exact .announce _ ((FrameScript.define fn).bind fun f =>
      (FrameScript.store target _).bind fun _ => .pure _)
  | .forEach target collection body => by
    simp only [Stmt.run]
    apply FrameScript.announce
    apply (FrameScript.lift collection.eval_scripted).bind
    intro v
    apply (FrameScript.ofExcept v.items_callFree).bind
    intro items
    exact .eachUntil (fun item => (target.assign_scripted item).bind fun _ =>
      runBlock_scripted body) items
  | .branch condition thenBody elseBody => by
    simp only [Stmt.run]
    apply FrameScript.announce
    apply (FrameScript.lift condition.eval_scripted).bind
    intro v
    split
    · exact runBlock_scripted thenBody
    · exact runBlock_scripted elseBody
  | .assign target value => by
    simp only [Stmt.run]
    exact .announce _ ((FrameScript.lift value.eval_scripted).bind fun v =>
      (FrameScript.store target v).bind fun _ => .pure _)
  | .pass => by
    simp only [Stmt.run]
    exact .announce _ (.pure _)

theorem runBlock_scripted : ∀ body : List Stmt,
    FrameScript fun settings call => runBlock settings call body
  | [] => by
    simp only [runBlock]
    exact .pure none
  | s :: rest => by
    simp only [runBlock]
    apply s.run_scripted.bind
    intro result
    cases result with
    | none => exact runBlock_scripted rest
    | some result => exact .pure _

end

theorem FunctionDef.interpret_scripted (fn : FunctionDef) :
    FrameScript fun settings call => fn.interpret settings call :=
  (runBlock_scripted fn.body).bind fun _ => .pure _

end Tiered
