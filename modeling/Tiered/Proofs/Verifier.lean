import Tiered.Proofs.Exploration
import Tiered.Proofs.Pools

/-! What verification establishes: the code is a sequence of instructions whose operands resolve and
whose jumps lead to instructions, and depths can be assigned to it. -/
namespace Tiered

namespace Lowered

def Resolves (p : Lowered) : Instr → Prop
  | .pushConstant index => index.toNat < p.unit.constants.size
  | .loadUniversal index => index.toNat < p.unit.names.size
  | .loadLocal slot | .storeLocal slot => slot.toNat < p.unit.localCount.toNat
  | .makeFunction index => ((p.unit.functionAt? index).bind p.functions.get?).isSome
  | _ => True

theorem operandOk_eq_ok_iff {p : Lowered} {i : Instr} : p.operandOk i = .ok () ↔ p.Resolves i := by
  cases i with
  | makeFunction index =>
    rw [operandOk, Resolves]
    cases h : p.unit.functionAt? index with
    | none =>
      have hge : p.unit.functions.size ≤ index.toNat := Array.getElem?_eq_none_iff.mp h
      simp [Nat.not_lt.mpr hge]
    | some id =>
      simp only [Option.bind_some, ← NestedDefs.contains_eq_isSome]
      split <;> simp [*]
  | pushConstant _ | loadUniversal _ | loadLocal _ | storeLocal _ =>
    simp only [operandOk, Resolves]
    split <;> simp [*]
  | _ => simp [operandOk, Resolves]

theorem checkInstr_eq_ok_iff {p : Lowered} {starts : Array (Option Nat)} {l : Located} :
    p.checkInstr starts l = .ok () ↔
      p.Resolves l.instr ∧ ∀ t, l.target? = some t → (startAt starts t).isSome := by
  unfold checkInstr
  rw [← operandOk_eq_ok_iff]
  cases p.operandOk l.instr with
  | error flaw => simp
  | ok _ =>
    cases l.target? with
    | none => simp
    | some t =>
      by_cases ht : (startAt starts t).isSome <;> simp [ht]

end Lowered

section Checks

variable {α ε : Type} {f : α → Except ε Unit}

theorem forM_eq_ok_iff {xs : List α} : forM xs f = .ok () ↔ ∀ x ∈ xs, f x = .ok () := by
  induction xs with
  | nil => simp [pure, Except.pure]
  | cons x xs ih =>
    rw [List.forM_cons]
    cases hx : f x with
    | error e => simp [bind, Except.bind, hx]
    | ok _ => simp [bind, Except.bind, hx, ih]

theorem exists_of_forM_eq_error {xs : List α} {e : ε} (h : forM xs f = .error e) :
    ∃ x ∈ xs, f x = .error e := by
  induction xs with
  | nil => cases h
  | cons x xs ih =>
    rw [List.forM_cons] at h
    cases hx : f x with
    | error e' =>
      rw [hx] at h
      exact ⟨x, List.mem_cons_self, hx.trans h⟩
    | ok _ =>
      rw [hx] at h
      obtain ⟨y, hy, he⟩ := ih h
      exact ⟨y, List.mem_cons_of_mem _ hy, he⟩

end Checks

def startsOf (is : List Instr) : Array (Option Nat) :=
  boundaries (codeSize is) (locate 0 is).toArray

theorem startsOf_bound (is : List Instr) (t : Int) (j : Nat) (h : startAt (startsOf is) t = some j) :
    j < (locate 0 is).toArray.size := by
  simpa using (startAt_boundaries.mp h).1

namespace Lowered

/-- The code of the unit is `is`, its jumps lead to instructions, and `depthAt` gives depths that
agree along control flow. -/
structure Typed (p : Lowered) (is : List Instr) (depthAt : Nat → Option Depth) : Prop where
  holds : p.unit.Holds 0 is
  size : codeSize is = p.unit.size
  targets : ∀ l ∈ locate 0 is, ∀ t, l.target? = some t → (startAt (startsOf is) t).isSome
  consistent : Consistent (locate 0 is).toArray (startsOf is) depthAt

theorem check_eq {p : Lowered} {is : List Instr} (hh : p.unit.Holds 0 is)
    (hs : codeSize is = p.unit.size) :
    p.check = if p.unit.size = 0 then .error (0, .empty) else
      forM (locate 0 is) (p.checkInstr (startsOf is)) >>= fun _ =>
        exploreDepths (locate 0 is).toArray (startsOf is) := by
  have hdecode := CodeUnit.decode_eq_ok_iff.mpr ⟨is, hh, hs, rfl⟩
  have hforM (f : Located → Checked Unit) :
      (locate 0 is).toArray.forM f = forM (locate 0 is) f := by simp
  unfold check startsOf
  rw [hs]
  split
  · rfl
  · rw [hdecode, ← hforM]
    rfl

theorem resolves_of_forM {p : Lowered} {is : List Instr}
    (h : forM (locate 0 is) (p.checkInstr (startsOf is)) = .ok ()) : ∀ i ∈ is, p.Resolves i := by
  intro i hi
  rw [← map_instr_locate 0 is] at hi
  obtain ⟨l, hl, rfl⟩ := List.mem_map.mp hi
  exact (checkInstr_eq_ok_iff.mp (forM_eq_ok_iff.mp h l hl)).1

theorem Typed.of_check {p : Lowered} {summary : Summary} (h : p.check = .ok summary) :
    ∃ is depthAt, p.Typed is depthAt ∧ (∀ i ∈ is, p.Resolves i) ∧
      ∀ {j d}, depthAt j = some d → d.values ≤ summary.maxStack ∧ d.loops ≤ summary.maxLoops := by
  obtain ⟨is, hh, hs⟩ : ∃ is, p.unit.Holds 0 is ∧ codeSize is = p.unit.size := by
    cases hd : p.unit.decode with
    | ok code =>
      obtain ⟨is, hh, hs, -⟩ := CodeUnit.decode_eq_ok_iff.mp hd
      exact ⟨is, hh, hs⟩
    | error e =>
      unfold check at h
      rw [hd] at h
      split at h <;> cases h
  rw [check_eq hh hs] at h
  split at h
  · cases h
  · rename_i hne
    cases hall : forM (locate 0 is) (p.checkInstr (startsOf is)) with
    | error e =>
      rw [hall] at h
      cases h
    | ok _ =>
      rw [hall] at h
      have hpos : 0 < (locate 0 is).toArray.size := by
        cases is with
        | nil => exact absurd hs.symm hne
        | cons i is => simp [locate]
      have htargets := fun l hl => (checkInstr_eq_ok_iff.mp (forM_eq_ok_iff.mp hall l hl)).2
      obtain ⟨r, hr, heq⟩ := exploreDepths_eq_map (startsOf_bound is) hpos
      cases r with
      | error e => cases heq.symm.trans h
      | ok g =>
        obtain rfl := Except.ok.inj (heq.symm.trans h)
        obtain ⟨hconsistent, hbounds⟩ := hr.consistent (startsOf_bound is) hpos
        exact ⟨is, g.depthAt, ⟨hh, hs, htargets, hconsistent⟩, resolves_of_forM hall, hbounds⟩

/-- Verification of typed code finds nothing wrong, unless an operand does not resolve. -/
theorem Typed.check_cases {p : Lowered} {is : List Instr} {depthAt : Nat → Option Depth}
    (h : p.Typed is depthAt) :
    (∃ summary, p.check = .ok summary) ∧ (∀ i ∈ is, p.Resolves i) ∨
      ∃ l ∈ locate 0 is, ∃ flaw, p.operandOk l.instr = .error flaw ∧
        p.check = .error (l.offset, flaw) := by
  obtain ⟨l, -, hl, -⟩ := h.consistent.flow h.consistent.entry
  obtain ⟨r, hr, heq⟩ := exploreDepths_eq_map (startsOf_bound is) (Array.getElem?_eq_some_iff.mp hl).1
  obtain ⟨g, rfl⟩ := hr.eq_ok_of_consistent h.consistent (Flow.initial_agrees h.consistent)
  have hne : p.unit.size ≠ 0 := by
    rw [← h.size]
    cases is with
    | nil => cases hl
    | cons i is =>
      have := i.size_pos
      rw [codeSize_cons]
      omega
  rw [check_eq h.holds h.size, if_neg hne]
  cases hall : forM (locate 0 is) (p.checkInstr (startsOf is)) with
  | ok _ => exact .inl ⟨⟨_, heq⟩, resolves_of_forM hall⟩
  | error e =>
    obtain ⟨l, hl, he⟩ := exists_of_forM_eq_error hall
    refine .inr ⟨l, hl, ?_⟩
    unfold checkInstr at he
    cases hop : p.operandOk l.instr with
    | error flaw =>
      rw [hop] at he
      obtain rfl := Except.error.inj he
      exact ⟨flaw, rfl, rfl⟩
    | ok _ =>
      have hok := checkInstr_eq_ok_iff.mpr ⟨operandOk_eq_ok_iff.mp hop, h.targets l hl⟩
      unfold checkInstr at hok
      rw [hok] at he
      cases he

theorem verify_eq_ok_iff {p : Lowered} {name : String} {summary : Summary} :
    p.verify name = .ok summary ↔ p.check = .ok summary := by
  unfold verify
  cases p.check with
  | ok s => simp
  | error e => simp

end Lowered

end Tiered
