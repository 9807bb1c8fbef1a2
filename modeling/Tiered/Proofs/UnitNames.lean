import Mathlib.Data.List.Nodup
import Tiered.Specializer.Loader

/-! Names of units. Whatever a loader is asked to load, and whether it accepts it, it gives no name
twice, and a name tells what it was made of. -/
namespace Tiered

section Format

variable {c : Char} {name : String}

theorem mem_plainName (h : c ∈ (plainName name).toList) : c.isAlphanum ∨ c = '_' := by
  unfold plainName at h
  split at h
  · have hall : "anonymous".toList.all Char.isAlphanum = true := by decide
    exact .inl (List.all_eq_true.mp hall c h)
  · rw [String.toList_map] at h
    obtain ⟨d, -, rfl⟩ := List.mem_map.mp h
    split
    · rename_i hd
      simpa using hd
    · exact .inr rfl

/-- No function name brings in the sign that ends it in the name of a unit. -/
theorem hash_notMem_plainName (name : String) : '#' ∉ (plainName name).toList := by
  intro h
  have hplain := mem_plainName h
  revert hplain
  decide

theorem toList_decimal (n : Nat) : (toString n).toList = Nat.toDigits 10 n := by
  rw [Nat.toString_eq_ofList_toDigits, String.toList_ofList]

theorem dot_notMem_decimal (n : Nat) : '.' ∉ (toString n).toList := by
  intro h
  rw [toList_decimal] at h
  have hdigit := Nat.isDigit_of_mem_toDigits (by decide) (by decide) h
  revert hdigit
  decide

theorem decimal_inj {m n : Nat} : toString m = toString n ↔ m = n := by
  constructor
  · intro h
    have hdigits : Nat.toDigits 10 m = Nat.toDigits 10 n := by
      rw [← toList_decimal, ← toList_decimal, h]
    have hread := congrArg (fun digits => Nat.ofDigitChars 10 digits 0) hdigits
    simpa using hread
  · rintro rfl
    rfl

theorem toList_unitName (name : String) (id : FunctionId) (sequence : Nat) :
    (unitName name id sequence).toList = (plainName name).toList ++
      '#' :: ((toString id).toList ++ '.' :: (toString sequence).toList) := by
  simp [unitName, String.toList_append]

/-- A run of characters of one kind ends where a character of another kind follows, or none. -/
theorem append_run_inj {p : Char → Bool} {xs ys us vs : List Char} (hx : ∀ d ∈ xs, p d)
    (hy : ∀ d ∈ ys, p d) (hu : ∀ d ∈ us.head?, ¬p d) (hv : ∀ d ∈ vs.head?, ¬p d) :
    xs ++ us = ys ++ vs ↔ xs = ys ∧ us = vs := by
  have hrun {zs ws : List Char} (hz : ∀ d ∈ zs, p d) (hw : ∀ d ∈ ws.head?, ¬p d) :
      (zs ++ ws).takeWhile p = zs := by
    rw [List.takeWhile_append_of_pos hz]
    cases ws with
    | nil => simp
    | cons d ws => simp [hw d rfl]
  constructor
  · intro h
    have hparts : xs = ys := by rw [← hrun hx hu, h, hrun hy hv]
    subst hparts
    exact ⟨rfl, List.append_cancel_left h⟩
  · rintro ⟨rfl, rfl⟩
    rfl

/-- What stands before and behind the first of a sign is determined. -/
theorem append_sign_inj {xs ys us vs : List Char} (hx : c ∉ xs) (hy : c ∉ ys) :
    xs ++ c :: us = ys ++ c :: vs ↔ xs = ys ∧ us = vs := by
  have hother {zs : List Char} (hz : c ∉ zs) : ∀ d ∈ zs, (d != c) = true := by
    intro d hd
    exact bne_iff_ne.mpr fun heq => hz (heq ▸ hd)
  have hsign {ws : List Char} : ∀ d ∈ (c :: ws).head?, ¬(d != c) = true := by simp
  rw [append_run_inj (hother hx) (hother hy) hsign hsign]
  simp

/-- A name of a unit has one reading: the first hash ends the name of the function, and the first
dot behind it ends the identity. -/
theorem unitName_inj {name name' : String} {id id' : FunctionId} {m n : Nat} :
    unitName name id m = unitName name' id' n ↔
      plainName name = plainName name' ∧ id = id' ∧ m = n := by
  rw [← String.toList_inj, toList_unitName, toList_unitName,
    append_sign_inj (hash_notMem_plainName name) (hash_notMem_plainName name'),
    append_sign_inj (dot_notMem_decimal id) (dot_notMem_decimal id'), String.toList_inj,
    String.toList_inj, String.toList_inj, decimal_inj, decimal_inj]

end Format

/-- The name that a unit was given, as the result of loading it shows it. -/
def shownName? : Except Refusal VerifiedUnit → Option String
  | .ok unit => some unit.name
  | .error (.verification e) => some e.unit
  | .error _ => none

namespace Loader

def loadAll (l : Loader) : List Lowered → List (Except Refusal VerifiedUnit)
  | [] => []
  | code :: rest => (l.load code).result :: (l.load code).after.loadAll rest

def names (l : Loader) : List Lowered → List String
  | [] => []
  | code :: rest => l.nameFor code.unit :: (l.load code).after.names rest

theorem shownName?_load (l : Loader) (code : Lowered) :
    shownName? (l.load code).result = some (l.nameFor code.unit) := by
  unfold load Lowered.verify
  cases code.check with
  | ok summary => rfl
  | error e => rfl

theorem sequence_load (l : Loader) (code : Lowered) :
    (l.load code).after.sequence = l.sequence + 1 := by
  simp only [load]
  split <;> rfl

theorem shownName?_loadAll (l : Loader) (codes : List Lowered) :
    (l.loadAll codes).map shownName? = (l.names codes).map some := by
  induction codes generalizing l with
  | nil => rfl
  | cons code rest ih =>
    rw [loadAll, names, List.map_cons, List.map_cons, shownName?_load, ih]

theorem getElem?_names (l : Loader) (codes : List Lowered) (k : Nat) :
    (l.names codes)[k]? =
      codes[k]?.map fun code =>
        unitName code.unit.name code.unit.function (l.sequence + k) := by
  induction codes generalizing l k with
  | nil => rfl
  | cons code rest ih =>
    cases k with
    | zero => rfl
    | succ k =>
      have hnext : l.sequence + 1 + k = l.sequence + (k + 1) := by omega
      rw [names, List.getElem?_cons_succ, List.getElem?_cons_succ, ih, sequence_load, hnext]

/-- The numbers of two attempts differ, so their names do. -/
theorem nodup_names (l : Loader) (codes : List Lowered) : (l.names codes).Nodup := by
  rw [List.nodup_iff_getElem?_ne_getElem?]
  intro i j hij hj heq
  have hjth : (l.names codes)[j]?.isSome := by simpa using hj
  rw [getElem?_names, Option.isSome_map] at hjth
  obtain ⟨code, hcode⟩ := Option.isSome_iff_exists.mp hjth
  rw [getElem?_names, getElem?_names, hcode, Option.map_some] at heq
  obtain ⟨code', -, hname⟩ := Option.map_eq_some_iff.mp heq
  have hnumber := (unitName_inj.mp hname).2.2
  omega

end Loader

/-- A loader gives every unit, accepted or not, a name that no other has got: the name of the
function with its separators taken out, its identity, and the number of the attempt. Each of the
three can be read off the name. -/
theorem unit_names_unique (l : Loader) (codes : List Lowered) :
    (l.loadAll codes).map shownName? = (l.names codes).map some ∧
    (l.names codes).Nodup ∧
    (∀ k, (l.names codes)[k]? =
      codes[k]?.map fun code => unitName code.unit.name code.unit.function (l.sequence + k)) ∧
    ∀ (name name' : String) (id id' : FunctionId) (m n : Nat),
      unitName name id m = unitName name' id' n ↔
        plainName name = plainName name' ∧ id = id' ∧ m = n := by
  refine ⟨l.shownName?_loadAll codes, l.nodup_names codes, l.getElem?_names codes, ?_⟩
  intro name name' id id' m n
  exact unitName_inj

end Tiered
