import Tiered.Program

/-! A bounded cache that gives up the entry whose last use is longest ago. What the specializer
relies on is which identities it holds, in the order of their last use, after an entry was used
(`Cache.ids_touch`) and after one was put in (`Cache.ids_insert`). -/
namespace Tiered

/-- Entries by identity, the one used last in front. -/
structure Cache (α : Type) where
  capacity : Nat
  entries : List (FunctionId × α) := []

namespace Cache

variable {α : Type}

def ids (c : Cache α) : List FunctionId :=
  c.entries.map Prod.fst

def find? (c : Cache α) (id : FunctionId) : Option α :=
  c.entries.lookup id

def touch (c : Cache α) (id : FunctionId) (a : α) : Cache α :=
  { c with entries := (id, a) :: c.entries.filter (·.1 != id) }

/-- The identity that a new entry would drive out. -/
def victim? (c : Cache α) : Option FunctionId :=
  if c.entries.length < c.capacity then none else c.ids.getLast?

/-- Puts a new entry in front, in place of the last one if the cache is full. -/
def insert (c : Cache α) (id : FunctionId) (a : α) : Cache α :=
  let kept := if c.entries.length < c.capacity then c.entries else c.entries.dropLast
  { c with entries := (id, a) :: kept }

variable (c : Cache α) (id : FunctionId) (a : α)

/-- Use makes an identity the latest, and leaves the order of the others. -/
theorem ids_touch : (c.touch id a).ids = id :: c.ids.filter (· != id) := by
  simp [ids, touch, List.filter_map, Function.comp_def]

/-- A new identity is the latest. It takes the place of the one whose last use is longest ago, if
there is no other place. -/
theorem ids_insert :
    (c.insert id a).ids =
      id :: (if c.ids.length < c.capacity then c.ids else c.ids.dropLast) := by
  unfold ids insert
  rw [List.length_map, List.map_cons]
  split <;> simp

theorem find?_eq_none_iff : c.find? id = none ↔ id ∉ c.ids := by
  simp only [find?, ids, List.lookup_eq_none_iff, List.mem_map, bne_iff_ne]
  constructor
  · rintro h ⟨p, hp, rfl⟩
    exact h p hp rfl
  · rintro h p hp rfl
    exact h ⟨p, hp, rfl⟩

end Cache

end Tiered
