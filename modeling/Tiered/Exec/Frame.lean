import Tiered.Exec.World
import Tiered.Operator

/-! Frames: the local slots of one call, and how identifiers are read and written in it. -/
namespace Tiered

structure Frame where
  function : FunctionRef
  locals : Array (Option Value)

namespace Frame

def blank (f : FunctionRef) (fn : FunctionDef) : Frame :=
  ⟨f, Array.replicate fn.localCount.toNat none⟩

def slotRange (frame : Frame) (slot : UInt16) : Failure :=
  .internal (.slotRange slot frame.locals.size)

def readLocal (frame : Frame) (slot : UInt16) : Except Failure (Option Value) :=
  match frame.locals[slot.toNat]? with
  | some v => .ok v
  | none => .error (frame.slotRange slot)

def writeLocal (frame : Frame) (slot : UInt16) (v : Value) : Except Failure Frame :=
  if slot.toNat < frame.locals.size then
    .ok { frame with locals := frame.locals.setIfInBounds slot.toNat (some v) }
  else .error (frame.slotRange slot)

def loadLocal (frame : Frame) (slot : UInt16) (name : String) : Except Failure Value := do
  match ← frame.readLocal slot with
  | some v => .ok v
  | none => .error (.unboundLocal name)

def loadGlobal (frame : Frame) (w : World) (slot : UInt16) (name : String) :
    Except Failure Value :=
  match w.readGlobal frame.function slot with
  | some v => .ok v
  | none => .error (.unboundGlobal name)

end Frame

def loadUniversal (name : String) : Except Failure Value :=
  match Builtin.universal? name with
  | some b => .ok (.builtin b)
  | none => .error (.undefinedName name)

/-- The value of an identifier; reading changes nothing. -/
def Frame.load (frame : Frame) (w : World) : Ident → Except Failure Value
  | .universal name => loadUniversal name
  | .globalVar name slot => frame.loadGlobal w slot name
  | .localVar name slot => frame.loadLocal slot name

/-- One call under way: its frame, and the world around it. -/
structure Activation where
  frame : Frame
  world : World

namespace Activation

/-- A run of the world alone, with the frame to read from. -/
def lift {α : Type} (x : Frame → Run World α) : Run Activation α := fun ⟨frame, world⟩ =>
  match x frame world with
  | .ok a world => .ok a ⟨frame, world⟩
  | .error e world => .error e ⟨frame, world⟩

/-- Runs the body of a call in `frame`, which ends with it. -/
def enter {α : Type} (frame : Frame) (x : Run Activation α) : Run World α := fun world =>
  match x ⟨frame, world⟩ with
  | .ok a act => .ok a act.world
  | .error e act => .error e act.world

def emit (e : Event) : Run Activation Unit :=
  lift fun _ => World.emit e

def storeLocal (slot : UInt16) (v : Value) : Run Activation Unit := fun ⟨frame, world⟩ =>
  match frame.writeLocal slot v with
  | .ok frame => .ok () ⟨frame, world⟩
  | .error e => .error (.raised e) ⟨frame, world⟩

def storeGlobal (slot : UInt16) (v : Value) : Run Activation Unit :=
  lift fun frame => modify (·.writeGlobal frame.function slot v)

/-- Binds an identifier; universal names cannot be bound. -/
def store (x : Ident) (v : Value) : Run Activation Unit :=
  match x with
  | .universal name => .raise (.internal (.universalStore name))
  | .globalVar _ slot => storeGlobal slot v
  | .localVar _ slot => storeLocal slot v

end Activation

end Tiered
