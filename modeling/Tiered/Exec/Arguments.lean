import Tiered.Exec.Frame

/-! Binding the arguments of a call to the parameters of a function. -/
namespace Tiered

/-- Arguments of a call; the names of keywords may repeat. -/
structure Arguments where
  positional : List Value := []
  keywords : List (String × Value) := []

namespace Frame

def bindPositional (frame : Frame) (slot : Nat) : List Value → Except Failure Frame
  | [] => .ok frame
  | v :: rest => do
    let frame ← frame.writeLocal (UInt16.ofNat slot) v
    frame.bindPositional (slot + 1) rest

/-- A keyword means the first parameter of its name, and must find it unbound. -/
def bindKeyword (frame : Frame) (fn : FunctionDef) (name : String) (v : Value) :
    Except Failure Frame :=
  match fn.params.findIdx? (· == name) with
  | none => .error (.unexpectedKeyword fn.name name)
  | some i => do
    let slot := UInt16.ofNat i
    if (← frame.readLocal slot).isSome then throw (.duplicateArgument fn.name name)
    frame.writeLocal slot v

def bindKeywords (frame : Frame) (fn : FunctionDef) :
    List (String × Value) → Except Failure Frame
  | [] => .ok frame
  | (name, v) :: rest => do
    let frame ← frame.bindKeyword fn name v
    frame.bindKeywords fn rest

def checkBound (frame : Frame) (fn : FunctionDef) (slot : Nat) :
    List String → Except Failure Unit
  | [] => .ok ()
  | param :: rest => do
    if (← frame.readLocal (UInt16.ofNat slot)).isNone then throw (.missingArgument fn.name param)
    frame.checkBound fn (slot + 1) rest

end Frame

/-- The frame of a call of `fn`: positional arguments first, then keywords in order, and in the end
no parameter may be left unbound. -/
def FunctionDef.bind (fn : FunctionDef) (f : FunctionRef) (args : Arguments) :
    Except Failure Frame := do
  if fn.params.length < args.positional.length then
    throw (.arityMismatch fn.name fn.params.length args.positional.length)
  let frame ← (Frame.blank f fn).bindPositional 0 args.positional
  let frame ← frame.bindKeywords fn args.keywords
  frame.checkBound fn 0 fn.params
  return frame

end Tiered
