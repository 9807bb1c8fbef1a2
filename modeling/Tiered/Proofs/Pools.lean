import Tiered.Proofs.Shape

/-! Pools, slot names and the table of nested definitions while a unit grows: nothing in them is
ever changed or lost. -/
namespace Tiered

/-- Indices of entries fit a word. -/
structure Lowered.Fits (s : Lowered) : Prop where
  constants : s.unit.constants.size ≤ UInt16.size
  names : s.unit.names.size ≤ UInt16.size
  functions : s.unit.functions.size ≤ UInt16.size

/-- `t` has all entries of `s`, at the same indices. -/
structure Lowered.Extends (s t : Lowered) : Prop where
  constants : s.unit.constants.toList <+: t.unit.constants.toList
  names : s.unit.names.toList <+: t.unit.names.toList
  functions : s.unit.functions.toList <+: t.unit.functions.toList
  table : ∀ id fn, s.functions.get? id = some fn → t.functions.get? id = some fn

private theorem getElem?_of_prefix {α : Type} {a b : Array α} (h : a.toList <+: b.toList) {i : Nat}
    {x : α} (hx : a[i]? = some x) : b[i]? = some x := by
  obtain ⟨rest, hr⟩ := h
  have hi : i < a.toList.length := by simpa using (Array.getElem?_eq_some_iff.mp hx).1
  rw [← Array.getElem?_toList, ← hr, List.getElem?_append_left hi, Array.getElem?_toList, hx]

namespace Lowered.Extends

variable {s t r : Lowered}

theorem refl (s : Lowered) : s.Extends s :=
  ⟨List.prefix_rfl, List.prefix_rfl, List.prefix_rfl, fun _ _ h => h⟩

theorem trans (h : s.Extends t) (k : t.Extends r) : s.Extends r :=
  ⟨h.constants.trans k.constants, h.names.trans k.names, h.functions.trans k.functions,
    fun id fn hf => k.table id fn (h.table id fn hf)⟩

theorem constantAt? (h : s.Extends t) {i : UInt16} {v : Value}
    (hi : s.unit.constantAt? i = some v) : t.unit.constantAt? i = some v :=
  getElem?_of_prefix h.constants hi

theorem nameAt? (h : s.Extends t) {i : UInt16} {name : String}
    (hi : s.unit.nameAt? i = some name) : t.unit.nameAt? i = some name :=
  getElem?_of_prefix h.names hi

theorem functionAt? (h : s.Extends t) {i : UInt16} {id : FunctionId}
    (hi : s.unit.functionAt? i = some id) : t.unit.functionAt? i = some id :=
  getElem?_of_prefix h.functions hi

end Lowered.Extends

theorem intern_spec {α : Type} [BEq α] [LawfulBEq α] {pool pool' : Array α} {a : α} {i : UInt16}
    (hs : pool.size ≤ UInt16.size) (h : intern pool a = some (i, pool')) :
    pool.toList <+: pool'.toList ∧ pool'[i.toNat]? = some a ∧ pool'.size ≤ UInt16.size := by
  unfold intern at h
  split at h
  · rename_i k hk
    obtain ⟨rfl, rfl⟩ := Prod.mk.inj (Option.some.inj h)
    obtain ⟨hlt, hka, -⟩ := Array.findIdx?_eq_some_iff_getElem.mp hk
    have hik : (UInt16.ofNat k).toNat = k := UInt16.toNat_ofNat_of_lt' (Nat.lt_of_lt_of_le hlt hs)
    refine ⟨List.prefix_rfl, ?_, hs⟩
    rw [hik, Array.getElem?_eq_getElem hlt, eq_of_beq hka]
  · split at h
    · rename_i hlt
      obtain ⟨rfl, rfl⟩ := Prod.mk.inj (Option.some.inj h)
      have hik : (UInt16.ofNat pool.size).toNat = pool.size := UInt16.toNat_ofNat_of_lt' hlt
      refine ⟨by simp, ?_, by simp; omega⟩
      rw [hik]
      simp
    · cases h

def tagAll (names : Array (Option String)) (uses : List SlotUse) : Array (Option String) :=
  uses.foldl (fun names use => tagSlot names use.1 use.2) names

@[simp] theorem tagAll_nil (names : Array (Option String)) : tagAll names [] = names := rfl

@[simp] theorem tagAll_cons (names : Array (Option String)) (use : SlotUse) (uses : List SlotUse) :
    tagAll names (use :: uses) = tagAll (tagSlot names use.1 use.2) uses := rfl

@[simp] theorem tagAll_append (names : Array (Option String)) (xs ys : List SlotUse) :
    tagAll names (xs ++ ys) = tagAll (tagAll names xs) ys := by
  simp [tagAll]

theorem tagSlot_join (names : Array (Option String)) (slot : UInt16) (name : String) (k : Nat) :
    (tagSlot names slot name)[k]?.join =
      if k = slot.toNat ∧ names[k]?.join = none then some name else names[k]?.join := by
  have hpad := getElem?_pad names (slot.toNat + 1)
  have hsize : slot.toNat <
      (names ++ Array.replicate (slot.toNat + 1 - names.size) none).size := by
    simp
    omega
  unfold tagSlot
  simp only [hpad, Option.isNone_iff_eq_none]
  by_cases hn : names[slot.toNat]?.join = none
  · rw [if_pos hn]
    by_cases hk : k = slot.toNat
    · subst hk
      rw [Array.getElem?_setIfInBounds_self_of_lt hsize, if_pos ⟨rfl, hn⟩]
      rfl
    · rw [Array.getElem?_setIfInBounds_ne (Ne.symm hk), hpad, if_neg (fun h => hk h.1)]
  · rw [if_neg hn, hpad, if_neg]
    rintro ⟨rfl, h⟩
    exact hn h

theorem tagAll_join_of_some {names : Array (Option String)} {k : Nat} {name : String}
    (h : names[k]?.join = some name) (uses : List SlotUse) :
    (tagAll names uses)[k]?.join = some name := by
  induction uses generalizing names with
  | nil => exact h
  | cons use uses ih =>
    apply ih
    rw [tagSlot_join, if_neg (by simp [h]), h]

/-- A slot that is used goes by one of the names it is used under, or by the one it had. -/
theorem tagAll_join_mem (names : Array (Option String)) {uses : List SlotUse} {slot : UInt16}
    {name : String} (h : (slot, name) ∈ uses) :
    ∃ shown, (tagAll names uses)[slot.toNat]?.join = some shown ∧
      ((slot, shown) ∈ uses ∨ names[slot.toNat]?.join = some shown) := by
  induction uses generalizing names with
  | nil => simp at h
  | cons use uses ih =>
    cases hn : names[slot.toNat]?.join with
    | some shown => exact ⟨shown, tagAll_join_of_some hn _, .inr rfl⟩
    | none =>
      rcases List.mem_cons.mp h with rfl | h
      · refine ⟨name, tagAll_join_of_some ?_ uses, .inl (by simp)⟩
        rw [tagSlot_join, if_pos ⟨rfl, hn⟩]
      · obtain ⟨shown, hs, hm | hm⟩ := ih (tagSlot names use.1 use.2) h
        · exact ⟨shown, hs, .inl (List.mem_cons_of_mem _ hm)⟩
        · rw [tagSlot_join, hn] at hm
          split at hm
          · rename_i hk
            obtain rfl := Option.some.inj hm
            have hslot : slot = use.1 := UInt16.toNat_inj.mp hk.1
            exact ⟨use.2, hs, .inl (by simp [hslot])⟩
          · cases hm

/-- Where no slot goes by two names, a slot shows the name it is used under. -/
theorem nameOfSlot_tagAll {uses : List SlotUse} (h : OneNamePerSlot uses) {slot : UInt16}
    {name : String} (hm : (slot, name) ∈ uses) :
    CodeUnit.nameOfSlot (tagAll #[] uses) slot = name := by
  obtain ⟨shown, hs, hm' | hm'⟩ := tagAll_join_mem #[] hm
  · rw [CodeUnit.nameOfSlot, hs]
    exact h _ hm' _ hm rfl
  · simp at hm'

namespace NestedDefs

theorem get?_register (t : NestedDefs) (fn : FunctionDef) (id : FunctionId) :
    (t.register fn).get? id = (t.get? id).or (if fn.id = id then some fn else none) := by
  unfold register
  split
  · rename_i hc
    by_cases hid : fn.id = id
    · subst hid
      have hs : (t.get? fn.id).isSome := by
        simpa [get?, List.find?_isSome, contains, List.any_eq_true] using hc
      obtain ⟨g, hg⟩ := Option.isSome_iff_exists.mp hs
      simp [hg]
    · simp [hid]
  · simp only [get?, List.find?_append]
    congr 1
    by_cases hid : fn.id = id <;> simp [hid]

theorem mem_register {t : NestedDefs} {fn g : FunctionDef} (h : g ∈ (t.register fn).entries) :
    g ∈ t.entries ∨ g = fn := by
  unfold register at h
  split at h
  · exact .inl h
  · simpa using h

def registerAll (t : NestedDefs) (fs : List FunctionDef) : NestedDefs :=
  fs.foldl register t

@[simp] theorem registerAll_nil (t : NestedDefs) : t.registerAll [] = t := rfl

@[simp] theorem registerAll_cons (t : NestedDefs) (fn : FunctionDef) (fs : List FunctionDef) :
    t.registerAll (fn :: fs) = (t.register fn).registerAll fs := rfl

@[simp] theorem registerAll_append (t : NestedDefs) (fs gs : List FunctionDef) :
    t.registerAll (fs ++ gs) = (t.registerAll fs).registerAll gs :=
  List.foldl_append

theorem mem_registerAll {t : NestedDefs} {fs : List FunctionDef} {g : FunctionDef}
    (h : g ∈ (t.registerAll fs).entries) : g ∈ t.entries ∨ g ∈ fs := by
  induction fs generalizing t with
  | nil => exact .inl h
  | cons fn fs ih =>
    rcases ih h with ht | hfs
    · rcases mem_register ht with ht | rfl
      · exact .inl ht
      · exact .inr (List.mem_cons_self ..)
    · exact .inr (List.mem_cons_of_mem _ hfs)

theorem get?_registerAll (t : NestedDefs) (fs : List FunctionDef) (id : FunctionId) :
    (t.registerAll fs).get? id = (t.get? id).or (fs.find? (·.id == id)) := by
  induction fs generalizing t with
  | nil => simp
  | cons fn fs ih =>
    rw [registerAll_cons, ih, get?_register, Option.or_assoc, List.find?_cons]
    by_cases hid : fn.id = id
    · rw [if_pos hid, hid, beq_self_eq_true, Option.some_or]
    · rw [if_neg hid, beq_false_of_ne hid, Option.none_or]

theorem contains_eq_isSome (t : NestedDefs) (id : FunctionId) :
    t.contains id = (t.get? id).isSome := by
  rw [Bool.eq_iff_iff]
  simp [contains, get?, List.any_eq_true]

end NestedDefs

end Tiered
