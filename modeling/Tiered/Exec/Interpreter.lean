import Tiered.Exec.Arguments

/-! The interpreter: runs a function body by walking it. Calls go through `call`, whatever engine
they lead to. -/
namespace Tiered

abbrev Caller := Value → Arguments → Run World Value

mutual

/-- The value of an expression, operands and arguments from left to right. -/
def Expr.eval (call : Caller) (frame : Frame) : Expr → Run World Value
  | .ident x => do Run.ofExcept (frame.load (← get) x)
  | .int n => pure (.int n)
  | .str s => pure (.str s)
  | .binary op lhs rhs => do
    let a ← lhs.eval call frame
    let b ← rhs.eval call frame
    Run.ofExcept (op.apply a b)
  | .call callee args => do
    let f ← callee.eval call frame
    let args ← evalArgs call frame args
    call f args
  | .list items => do
    let values ← evalItems call frame items
    return .list values

def evalArgs (call : Caller) (frame : Frame) : List Arg → Run World Arguments
  | [] => pure {}
  | .positional e :: rest => do
    let v ← e.eval call frame
    let args ← evalArgs call frame rest
    return { args with positional := v :: args.positional }
  | .keyword name e :: rest => do
    let v ← e.eval call frame
    let args ← evalArgs call frame rest
    return { args with keywords := (name, v) :: args.keywords }

def evalItems (call : Caller) (frame : Frame) : List Expr → Run World (List Value)
  | [] => pure []
  | e :: rest => do
    let v ← e.eval call frame
    let values ← evalItems call frame rest
    return v :: values

end

mutual

/-- Binds a loop target: an identifier takes the value, a list of targets the elements of a list
that is just as long. -/
def Expr.assign : Expr → Value → Run Activation Unit
  | .ident x, v => Activation.store x v
  | .list targets, v => do
    let items ← Run.ofExcept v.items
    if items.length = targets.length then assignAll targets items
    else .raise (.unpackMismatch targets.length items.length)
  | target, _ => .raise (.internal (.badTarget target.kind))

def assignAll : List Expr → List Value → Run Activation Unit
  | target :: targets, v :: vs => do
    target.assign v
    assignAll targets vs
  | _, _ => pure ()

end

def eachUntil {σ : Type} (body : Value → Run σ (Option Value)) :
    List Value → Run σ (Option Value)
  | [] => pure none
  | v :: rest => do
    match ← body v with
    | some result => return some result
    | none => eachUntil body rest

mutual

/-- Runs a statement; the result is the value it returns from the function, if it does. -/
def Stmt.run (settings : ExecSettings) (call : Caller) (s : Stmt) :
    Run Activation (Option Value) := do
  if settings.trace then Activation.emit (.statement s.kind)
  match s with
  | .ret none => return some .none
  | .ret (some e) => some <$> Activation.lift (e.eval call)
  | .eval e => do
    let _ ← Activation.lift (e.eval call)
    return none
  | .define target fn => do
    let f ← Activation.lift fun frame => World.allocClosure fn frame.function
    Activation.store target (.function f)
    return none
  | .forEach target collection body => do
    let v ← Activation.lift (collection.eval call)
    let items ← Run.ofExcept v.items
    eachUntil (fun item => do
      target.assign item
      runBlock settings call body) items
  | .branch condition thenBody elseBody => do
    let v ← Activation.lift (condition.eval call)
    if v.isTruthy then runBlock settings call thenBody else runBlock settings call elseBody
  | .assign target value => do
    let v ← Activation.lift (value.eval call)
    Activation.store target v
    return none
  | .pass => return none

def runBlock (settings : ExecSettings) (call : Caller) : List Stmt → Run Activation (Option Value)
  | [] => pure none
  | s :: rest => do
    match ← s.run settings call with
    | some result => return some result
    | none => runBlock settings call rest

end

/-- Runs the body of a function; one that ends without a return yields None. -/
def FunctionDef.interpret (settings : ExecSettings) (call : Caller) (fn : FunctionDef) :
    Run Activation Value :=
  return (← runBlock settings call fn.body).getD .none

end Tiered
