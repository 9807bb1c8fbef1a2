import Tiered.Exec.Interpreter

/-! The builtins every program sees. -/
namespace Tiered

/-- Builtins that the host of a program supplies, by name. They call back through `Caller`. -/
abbrev Host := String → Caller → List Value → Run World Value

namespace Builtin

def oneArg (name : String) : List Value → Except Failure Value
  | [v] => .ok v
  | args => .error (.arityMismatch name 1 args.length)

def length (args : List Value) : Except Failure Value := do
  match ← oneArg "len" args with
  | .str s => .ok (.int (Int64.ofNat s.length))
  | .list items => .ok (.int (Int64.ofNat items.length))
  | v => .error (.builtin "len" s!"value of type {v.typeName} has no len")

def rangeBound (v : Value) : Except Failure Int :=
  match v.toInt? with
  | some n => .ok n.toInt
  | none => .error (.builtin "range" s!"got {v.typeName}, want int")

/-- The integers from `start` up to, and without, `stop`. -/
def integers (start stop : Int) : List Value :=
  (List.range (stop - start).toNat).map fun (i : Nat) => .int (Int64.ofInt (start + i))

/-- A range starts at zero unless it is given two bounds. -/
def rangeList : List Value → Except Failure Value
  | [stop] => do return .list (integers 0 (← rangeBound stop))
  | [start, stop] => do
    let start ← rangeBound start
    let stop ← rangeBound stop
    return .list (integers start stop)
  | args => .error (.arityMismatch "range" 2 args.length)

def run (host : Host) (call : Caller) (b : Builtin) (args : List Value) : Run World Value :=
  match b with
  | len => Run.ofExcept (length args)
  | range => Run.ofExcept (rangeList args)
  | str => return .str (← Run.ofExcept (oneArg "str" args)).display
  | typeOf => return .str (← Run.ofExcept (oneArg "type" args)).typeName
  | print => do
    World.print (" ".intercalate (args.map Value.display))
    return .none
  | .host name => host name call args

end Builtin

end Tiered
