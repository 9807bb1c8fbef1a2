import Tiered.Error
import Tiered.Specializer.Basic

/-! The world of a running program: function values, call depth, printed lines, and the specializer
that new function values are made with. -/
namespace Tiered

inductive Code where
  | interpreted
  | specialized (unit : VerifiedUnit)

namespace Code

def isSpecialized : Code → Bool
  | interpreted => false
  | specialized _ => true

def describe : Code → String
  | interpreted => "interpreted"
  | specialized unit => "specialized " ++ unit.name

def ofResult : Except Refusal VerifiedUnit → Code
  | .ok unit => specialized unit
  | .error _ => interpreted

end Code

/-- A function value: a definition, the code that runs it, and global slots of its own. -/
structure Callable where
  fn : FunctionDef
  qualifiedName : String
  code : Code
  globals : Array (Option Value) := #[]

namespace Callable

def readGlobal (c : Callable) (slot : UInt16) : Option Value :=
  c.globals[slot.toNat]?.join

/-- The slots grow as far as the written one. -/
def writeGlobal (c : Callable) (slot : UInt16) (v : Value) : Callable :=
  let i := slot.toNat
  let globals := c.globals ++ Array.replicate (i + 1 - c.globals.size) none
  { c with globals := globals.setIfInBounds i (some v) }

end Callable

/-- All that a run can change. Events are kept only while somebody listens. -/
structure World where
  heap : Array Callable := #[]
  depth : Nat := 0
  specializer : Option Specializer := none
  printed : Array String := #[]
  log : Option (Array Event) := none

/-- Why a run stops without a value: the program failed, or the fuel of the run is used up. -/
inductive Stop where
  | raised (e : Failure)
  | outOfFuel
deriving DecidableEq

/-- Runs that change a state of type `σ`, which outlives their failure. -/
abbrev Run (σ : Type) := EStateM Stop σ

namespace Run

variable {σ α : Type}

def raise (e : Failure) : Run σ α :=
  throw (.raised e)

def ofExcept : Except Failure α → Run σ α
  | .ok a => pure a
  | .error e => raise e

end Run

namespace World

def emitEvent (w : World) (e : Event) : World :=
  { w with log := w.log.map (·.push e) }

def emit (e : Event) : Run World Unit :=
  modify (·.emitEvent e)

def print (line : String) : Run World Unit :=
  modify fun w => { w with printed := w.printed.push line }

def callable? (w : World) (f : FunctionRef) : Option Callable :=
  w.heap[f.index]?

def readGlobal (w : World) (f : FunctionRef) (slot : UInt16) : Option Value :=
  (w.callable? f).bind (·.readGlobal slot)

def writeGlobal (w : World) (f : FunctionRef) (slot : UInt16) (v : Value) : World :=
  { w with heap := w.heap.modify f.index (·.writeGlobal slot v) }

/-- Enters a call, unless as many as `limit` are active. -/
def beginCall (limit : Nat) : Run World Unit := fun w =>
  if w.depth < limit then .ok () { w with depth := w.depth + 1 }
  else .error (.raised (.callDepthExceeded limit)) w

def endCall (w : World) : World :=
  { w with depth := w.depth - 1 }

/-- Runs `x` inside a call, which ends with it whatever its outcome. -/
def inCall {α : Type} (limit : Nat) (x : Run World α) : Run World α := fun w =>
  match beginCall limit w with
  | .error e w => .error e w
  | .ok _ w =>
    match x w with
    | .ok a w => .ok a w.endCall
    | .error e w => .error e w.endCall

def alloc (c : Callable) : Run World FunctionRef := fun w =>
  .ok ⟨w.heap.size, c.fn.name⟩ { w with heap := w.heap.push c }

def lookup (s : Specializer) (fn : FunctionDef) : Run World (Except Refusal VerifiedUnit) :=
  fun w =>
    let attempt := s.lookup fn
    .ok attempt.result
      (attempt.events.foldl emitEvent { w with specializer := some attempt.after })

/-- The code for a function: specialized where there is a specializer and it succeeds. -/
def chooseCode (fn : FunctionDef) : Run World Code := fun w =>
  match w.specializer with
  | none => .ok .interpreted w
  | some s => (Code.ofResult <$> lookup s fn) w

def allocFunction (fn : FunctionDef) (code : Code) : Run World FunctionRef :=
  alloc { fn := fn, qualifiedName := fn.name, code := code }

/-- A function value made while `enclosing` runs; its name is qualified by the enclosing one. -/
def allocClosure (fn : FunctionDef) (enclosing : FunctionRef) : Run World FunctionRef := do
  let code ← chooseCode fn
  let w ← get
  let outer := ((w.callable? enclosing).map (·.qualifiedName)).getD enclosing.name
  alloc { fn := fn, qualifiedName := outer ++ "." ++ fn.name, code := code }

end World

end Tiered
