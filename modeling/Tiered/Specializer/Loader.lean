import Tiered.Code.Listing
import Tiered.Code.Verification
import Tiered.Event

/-! The loader: names a lowered function, verifies it, and only then lets it be called. -/
namespace Tiered

/-- A unit that passed verification under its own name. -/
structure VerifiedUnit where
  name : String
  code : Lowered
  summary : Summary

/-- Result of an attempt, the state it leaves behind, and what it reports. -/
structure Attempt (σ : Type) where
  result : Except Refusal VerifiedUnit
  after : σ
  events : List Event

structure Loader where
  logDisassembly : Bool := false
  sequence : Nat := 0
  loaded : Nat := 0
  rejected : Nat := 0

/-- A function name of ASCII letters, digits and underscores; an empty one is called anonymous. -/
def plainName (name : String) : String :=
  if name = "" then "anonymous"
  else name.map fun c => if c.isAlphanum || c = '_' then c else '_'

def unitName (name : String) (id : FunctionId) (sequence : Nat) : String :=
  plainName name ++ "#" ++ toString id ++ "." ++ toString sequence

namespace Loader

def nameFor (l : Loader) (u : CodeUnit) : String :=
  unitName u.name u.function l.sequence

def loadedEvents (l : Loader) (unit : VerifiedUnit) : List Event :=
  let u := unit.code.unit
  .unitLoaded unit.name u.size unit.summary.instructions unit.summary.maxStack
      unit.code.functions.size ::
    (if l.logDisassembly then [.unitListing u.text] else [])

/-- Every attempt takes the next number, whether the unit passes or not. -/
def load (l : Loader) (code : Lowered) : Attempt Loader :=
  let name := l.nameFor code.unit
  match code.verify name with
  | .ok summary =>
    let unit : VerifiedUnit := ⟨name, code, summary⟩
    ⟨.ok unit, { l with sequence := l.sequence + 1, loaded := l.loaded + 1 }, l.loadedEvents unit⟩
  | .error e =>
    ⟨.error (.verification e), { l with sequence := l.sequence + 1, rejected := l.rejected + 1 },
      [.unitRejected e]⟩

end Loader

end Tiered
