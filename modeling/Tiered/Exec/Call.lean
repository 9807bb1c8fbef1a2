import Tiered.Exec.Builtins
import Tiered.Exec.Machine

/-! Calls: the one way into either engine. -/
namespace Tiered

def Callable.run (settings : ExecSettings) (call : Caller) (c : Callable) :
    Run Activation Value :=
  match c.code with
  | .interpreted => c.fn.interpret settings call
  | .specialized unit => unit.code.execute settings call

/-- Calls a function value: the call is entered first, then the arguments are bound. -/
def Callable.call (settings : ExecSettings) (call : Caller) (c : Callable) (f : FunctionRef)
    (args : Arguments) : Run World Value :=
  World.inCall settings.maxCallDepth do
    let frame ← Run.ofExcept (c.fn.bind f args)
    World.emit (.callFunction c.qualifiedName c.code.isSpecialized (← get).depth)
    Activation.enter frame (c.run settings call)

/-- Calls a builtin, which takes no keywords. -/
def Builtin.call (settings : ExecSettings) (host : Host) (call : Caller) (b : Builtin)
    (args : Arguments) : Run World Value :=
  if args.keywords.isEmpty then
    World.inCall settings.maxCallDepth do
      World.emit (.callBuiltin b.name args.positional.length)
      b.run host call args.positional
  else .raise (.keywordsNotAccepted b.name)

/-- Calls a value. `fuel` bounds how deep calls nest; a run it does not suffice for says so. -/
def applyValue (settings : ExecSettings) (host : Host) : (fuel : Nat) → Caller
  | 0, _, _ => throw .outOfFuel
  | fuel + 1, callee, args =>
    match callee with
    | .function f => do
      match (← get).callable? f with
      | some c => c.call settings (applyValue settings host fuel) f args
      | none => .raise (.notCallable callee.typeName)
    | .builtin b => b.call settings host (applyValue settings host fuel) args
    | v => .raise (.notCallable v.typeName)

/-- Fuel for calls nested deeper than any run lasts to reach. -/
def ampleFuel : Nat :=
  0x4000000000000000

end Tiered
