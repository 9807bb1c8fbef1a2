import Tiered.Program

/-! The definitions nested in a function, by identity. -/
namespace Tiered

/-- Definitions in the order they were registered. -/
structure NestedDefs where
  entries : List FunctionDef := []

namespace NestedDefs

def get? (t : NestedDefs) (id : FunctionId) : Option FunctionDef :=
  t.entries.find? (·.id == id)

def contains (t : NestedDefs) (id : FunctionId) : Bool :=
  t.entries.any (·.id == id)

/-- The first definition registered under an identity stays. -/
def register (t : NestedDefs) (fn : FunctionDef) : NestedDefs :=
  if t.contains fn.id then t else ⟨t.entries ++ [fn]⟩

def size (t : NestedDefs) : Nat :=
  t.entries.length

def isEmpty (t : NestedDefs) : Bool :=
  t.entries.isEmpty

/-- The registered identities, in ascending order. -/
def ids (t : NestedDefs) : List FunctionId :=
  (t.entries.map (·.id)).mergeSort

end NestedDefs

end Tiered
