import Tiered.Proofs.Acceptance
import Tiered.Proofs.MachineStep

/-! Jumps of a unit under construction. Any number of them may be open at once and closed in any
order: the operand of each is its own two bytes, so a jump keeps the target it was closed with
whatever else is done to the unit. A step that is refused changes nothing. -/
namespace Tiered

/-- A jump that was opened: its operation code, and where its operand is. -/
structure OpenedJump where
  op : Opcode
  label : Label

/-- A unit under construction, with the jumps opened so far in their order. -/
structure Draft where
  unit : CodeUnit
  jumps : List OpenedJump := []

/-- One step of building. A jump that was opened goes by its number. -/
inductive Edit where
  | appendBytes (bytes : List UInt8)
  | appendOp (op : Opcode)
  | appendByte (op : Opcode) (operand : UInt8)
  | appendWord (op : Opcode) (operand : UInt16)
  | reserveLocals (n : UInt16)
  | tagLocal (slot : UInt16) (name : String)
  | tagGlobal (slot : UInt16) (name : String)
  | internConstant (v : Value)
  | internName (name : String)
  | internFunction (id : FunctionId)
  | openJump (op : Opcode)
  | closeJump (k : Nat)
  | jumpBack (target : UInt64)

namespace Draft

def onUnit {α : Type} (d : Draft) (x : Build α) : EStateM.Result Refusal Draft Unit :=
  match x d.unit with
  | .ok _ u => .ok () { d with unit := u }
  | .error reason u => .error reason { d with unit := u }

/-- Does a step. There is nothing to do about a number that no jump has been given yet. -/
def perform (d : Draft) : Edit → EStateM.Result Refusal Draft Unit
  | .appendBytes bytes => d.onUnit (.appendBytes bytes)
  | .appendOp op => d.onUnit (.appendOp op)
  | .appendByte op operand => d.onUnit (.appendByte op operand)
  | .appendWord op operand => d.onUnit (.appendWord op operand)
  | .reserveLocals n => d.onUnit (.reserveLocals n)
  | .tagLocal slot name => d.onUnit (.tagLocal slot name)
  | .tagGlobal slot name => d.onUnit (.tagGlobal slot name)
  | .internConstant v => d.onUnit (.internConstant v)
  | .internName name => d.onUnit (.internName name)
  | .internFunction id => d.onUnit (.internFunction id)
  | .openJump op =>
    match Build.openJump op d.unit with
    | .ok label u => .ok () ⟨u, d.jumps ++ [⟨op, label⟩]⟩
    | .error reason u => .error reason { d with unit := u }
  | .closeJump k =>
    match d.jumps[k]? with
    | some j => d.onUnit (.closeJump j.label)
    | none => .ok () d
  | .jumpBack target => d.onUnit (.jumpBack (positionOf target))

def after (d : Draft) (e : Edit) : Draft :=
  match d.perform e with
  | .ok _ d' => d'
  | .error _ d' => d'

def afterAll (d : Draft) (es : List Edit) : Draft :=
  es.foldl after d

@[simp] theorem afterAll_cons (d : Draft) (e : Edit) (es : List Edit) :
    d.afterAll (e :: es) = (d.after e).afterAll es := rfl

def withInstr (d : Draft) (i : Instr) : Draft :=
  { d with unit := { d.unit with code := d.unit.code ++ i.encode } }

end Draft

namespace CodeUnit

section Append

variable {u v : CodeUnit} {bytes : List UInt8}

theorem size_of_append (h : v.code = u.code ++ bytes) : v.size = u.size + bytes.length := by
  rw [size, size, ← Array.length_toList, h, Array.toList_appendList, List.length_append,
    Array.length_toList]

theorem byte?_of_append (h : v.code = u.code ++ bytes) {p : Nat} (hp : p < u.size) :
    v.byte? p = u.byte? p := by
  have hlt : p < u.code.toList.length := by simpa [size] using hp
  rw [byte?_eq_toList, byte?_eq_toList, h, Array.toList_appendList, List.getElem?_append_left hlt]

theorem byte?_appended (h : v.code = u.code ++ bytes) (n : Nat) :
    v.byte? (u.size + n) = bytes[n]? := by
  have hle : u.code.toList.length ≤ u.size + n := by simp [size]
  have hn : u.size + n - u.code.toList.length = n := by simp [size]
  rw [byte?_eq_toList, h, Array.toList_appendList, List.getElem?_append_right hle, hn]

end Append

section Words

variable {u : CodeUnit} {offset p : Nat} {w : UInt16} {op : Opcode}

def setWord (u : CodeUnit) (offset : Nat) (w : UInt16) : CodeUnit :=
  { u with
    code := (u.code.setIfInBounds offset (w >>> 8).toUInt8).setIfInBounds (offset + 1) w.toUInt8 }

@[simp] theorem size_setWord (u : CodeUnit) (offset : Nat) (w : UInt16) :
    (u.setWord offset w).size = u.size := by
  simp [setWord, size]

theorem byte?_setWord_of_ne (w : UInt16) (hhigh : p ≠ offset) (hlow : p ≠ offset + 1) :
    (u.setWord offset w).byte? p = u.byte? p := by
  simp only [setWord, byte?]
  rw [Array.getElem?_setIfInBounds_ne hlow.symm, Array.getElem?_setIfInBounds_ne hhigh.symm]

theorem byte?_setWord_high (w : UInt16) (h : offset + 2 ≤ u.size) :
    (u.setWord offset w).byte? offset = some (w >>> 8).toUInt8 := by
  unfold size at h
  simp only [setWord, byte?]
  rw [Array.getElem?_setIfInBounds_ne (by omega),
    Array.getElem?_setIfInBounds_self_of_lt (by omega)]

theorem byte?_setWord_low (w : UInt16) (h : offset + 2 ≤ u.size) :
    (u.setWord offset w).byte? (offset + 1) = some w.toUInt8 := by
  unfold size at h
  simp only [setWord, byte?]
  rw [Array.getElem?_setIfInBounds_self_of_lt]
  rw [Array.size_setIfInBounds]
  omega

/-- Verification finds a jump where its operation code and its distance stand. -/
theorem instr?_of_jump {d : Int16} (hop : op.isJump) (hbyte : u.byte? offset = some op.byte)
    (hd : u.signedWord? (offset + 1) = some d) : ∃ i, u.instr? offset = some i ∧ i.opcode = op ∧
      Located.target? ⟨offset, i⟩ = some (offset + 3 + d.toInt) := by
  have himmediate := carries_signedWord.mpr hd
  cases op with
  | jump => exact ⟨.jump d, instr?_eq_some_iff.mpr ⟨hbyte, himmediate⟩, rfl, rfl⟩
  | forIter => exact ⟨.forIter d, instr?_eq_some_iff.mpr ⟨hbyte, himmediate⟩, rfl, rfl⟩
  | _ => cases hop

end Words

end CodeUnit

section Steps

/-- A step that is refused with the unit as it was, or puts bytes behind the code. -/
def Build.Appends {α : Type} (x : Build α) : Prop :=
  ∀ u, (∃ reason, x u = .error reason u) ∨
    ∃ a v bytes, x u = .ok a v ∧ v.code = u.code ++ (bytes : List UInt8)

namespace Build

theorem appends_modify {f : CodeUnit → CodeUnit} (h : ∀ u, (f u).code = u.code) :
    Appends (modify f) := by
  intro u
  exact .inr ⟨(), f u, [], rfl, by simp [h]⟩

theorem appends_appendBytes (bytes : List UInt8) : (appendBytes bytes).Appends := by
  intro u
  exact .inr ⟨(), _, bytes, rfl, rfl⟩

theorem appends_internIn {α : Type} [BEq α] (pool : PoolField α) (a : α) :
    (internIn pool a).Appends := by
  intro u
  cases h : intern (pool.read u) a with
  | none => exact .inl ⟨pool.full, internIn_of_none h⟩
  | some entry =>
    exact .inr ⟨entry.1, pool.write u entry.2, [], internIn_of_some h, by simp [pool.code_write]⟩

theorem appends_jumpBack (target : Int) : (jumpBack target).Appends := by
  intro u
  cases h : jumpOperand? (target - (u.code.size + 3)) with
  | none => exact .inl ⟨.jumpTooFar, by simp only [jumpBack, h]⟩
  | some distance =>
    exact .inr ⟨(), { u with code := u.code ++ (Instr.jump distance).encode }, _,
      by simp only [jumpBack, h], rfl⟩

end Build

namespace Draft

/-- What a step that is not refused can do to the code and to the opened jumps. -/
inductive Changes (d : Draft) : Edit → Draft → Prop
  | append {e : Edit} {d' : Draft} (bytes : List UInt8) :
      d'.unit.code = d.unit.code ++ bytes → d'.jumps = d.jumps → Changes d e d'
  | opened {op : Opcode} {d' : Draft} :
      d'.unit.code = d.unit.code ++ [op.byte, 0xff, 0xff] →
      d'.jumps = d.jumps ++ [⟨op, ⟨d.unit.size + 1⟩⟩] → Changes d (.openJump op) d'
  | closed {k : Nat} {j : OpenedJump} (w : UInt16) : d.jumps[k]? = some j →
      Changes d (.closeJump k) { d with unit := d.unit.setWord j.label.offset w }

variable {d : Draft} {k : Nat} {j : OpenedJump} {distance : Int16} {target : UInt64}

theorem closeJump_done (hj : d.jumps[k]? = some j)
    (h : jumpOperand? (d.unit.size - (j.label.offset + 2)) = some distance) :
    d.perform (.closeJump k) =
      .ok () { d with unit := d.unit.setWord j.label.offset distance.toUInt16 } := by
  unfold CodeUnit.size at h
  simp only [perform, hj, onUnit, Build.closeJump, h]
  rfl

theorem closeJump_refused (hj : d.jumps[k]? = some j)
    (h : jumpOperand? (d.unit.size - (j.label.offset + 2)) = none) :
    d.perform (.closeJump k) = .error .jumpTooFar d := by
  unfold CodeUnit.size at h
  simp only [perform, hj, onUnit, Build.closeJump, h]

theorem jumpBack_done (h : jumpOperand? (positionOf target - (d.unit.size + 3)) = some distance) :
    d.perform (.jumpBack target) = .ok () (d.withInstr (.jump distance)) := by
  unfold CodeUnit.size at h
  simp only [perform, onUnit, Build.jumpBack, h]
  rfl

theorem jumpBack_refused (h : jumpOperand? (positionOf target - (d.unit.size + 3)) = none) :
    d.perform (.jumpBack target) = .error .jumpTooFar d := by
  unfold CodeUnit.size at h
  simp only [perform, onUnit, Build.jumpBack, h]

theorem onUnit_cases {α : Type} {x : Build α} {e : Edit} (h : x.Appends) :
    (∃ reason, d.onUnit x = .error reason d) ∨ ∃ d', d.onUnit x = .ok () d' ∧ d.Changes e d' := by
  rcases h d.unit with ⟨reason, hx⟩ | ⟨a, v, bytes, hx, hcode⟩
  · exact .inl ⟨reason, by simp only [onUnit, hx]⟩
  · exact .inr ⟨{ d with unit := v }, by simp only [onUnit, hx], .append bytes hcode rfl⟩

/-- A step is refused and changes nothing, or is done. -/
theorem perform_cases (d : Draft) (e : Edit) :
    (∃ reason, d.perform e = .error reason d) ∨
      ∃ d', d.perform e = .ok () d' ∧ d.Changes e d' := by
  cases e with
  | appendBytes bytes => exact onUnit_cases (Build.appends_appendBytes bytes)
  | appendOp op => exact onUnit_cases (Build.appends_appendBytes _)
  | appendByte op operand => exact onUnit_cases (Build.appends_appendBytes _)
  | appendWord op operand => exact onUnit_cases (Build.appends_appendBytes _)
  | reserveLocals n =>
    exact onUnit_cases (x := Build.reserveLocals n) (Build.appends_modify fun _ => rfl)
  | tagLocal slot name =>
    exact onUnit_cases (x := Build.tagLocal slot name) (Build.appends_modify fun _ => rfl)
  | tagGlobal slot name =>
    exact onUnit_cases (x := Build.tagGlobal slot name) (Build.appends_modify fun _ => rfl)
  | internConstant v => exact onUnit_cases (Build.appends_internIn .constants v)
  | internName name => exact onUnit_cases (Build.appends_internIn .names name)
  | internFunction id => exact onUnit_cases (Build.appends_internIn .functions id)
  | openJump op => exact .inr ⟨_, rfl, .opened rfl rfl⟩
  | closeJump k =>
    cases hj : d.jumps[k]? with
    | none => exact .inr ⟨d, by simp only [perform, hj], .append [] (by simp) rfl⟩
    | some j =>
      cases h : jumpOperand? (d.unit.size - (j.label.offset + 2)) with
      | none => exact .inl ⟨.jumpTooFar, closeJump_refused hj h⟩
      | some distance => exact .inr ⟨_, closeJump_done hj h, .closed _ hj⟩
  | jumpBack target => exact onUnit_cases (Build.appends_jumpBack _)

theorem eq_of_refused {e : Edit} {reason : Refusal} {d' : Draft}
    (h : d.perform e = .error reason d') : d' = d := by
  rcases d.perform_cases e with ⟨reason', hp⟩ | ⟨d'', hp, -⟩
  · rw [hp] at h
    cases h
    rfl
  · rw [hp] at h
    cases h

theorem changes_after (d : Draft) (e : Edit) : d.Changes e (d.after e) := by
  rcases d.perform_cases e with ⟨reason, hp⟩ | ⟨d', hp, hchanges⟩
  · have hafter : d.after e = d := by simp only [after, hp]
    rw [hafter]
    exact .append [] (by simp) rfl
  · have hafter : d.after e = d' := by simp only [after, hp]
    rwa [hafter]

end Draft

end Steps

namespace Draft

section Frame

variable {d d' : Draft} {e : Edit} {k p : Nat}

/-- The position `p` is in the operand of the opened jump with number `k`. -/
def Touches (d : Draft) (k p : Nat) : Prop :=
  ∃ j, d.jumps[k]? = some j ∧ (p = j.label.offset ∨ p = j.label.offset + 1)

theorem Changes.size_le (h : d.Changes e d') : d.unit.size ≤ d'.unit.size := by
  cases h with
  | append bytes hcode _ =>
    have hsize := CodeUnit.size_of_append hcode
    omega
  | opened hcode _ =>
    have hsize := CodeUnit.size_of_append hcode
    omega
  | closed w hj => simp

/-- A step changes no byte but those of the operand of a jump it closes. -/
theorem Changes.byte? (h : d.Changes e d') (hp : p < d.unit.size)
    (hk : ∀ k, e = .closeJump k → ¬d.Touches k p) : d'.unit.byte? p = d.unit.byte? p := by
  cases h with
  | append bytes hcode _ => exact CodeUnit.byte?_of_append hcode hp
  | opened hcode _ => exact CodeUnit.byte?_of_append hcode hp
  | @closed k j w hj =>
    have hout := hk k rfl
    refine CodeUnit.byte?_setWord_of_ne w (fun heq => ?_) (fun heq => ?_)
    · exact hout ⟨j, hj, .inl heq⟩
    · exact hout ⟨j, hj, .inr heq⟩

/-- Jumps that are opened later have their operands behind the code so far. -/
theorem Changes.touches (h : d.Changes e d') (hp : p < d.unit.size) (ht : d'.Touches k p) :
    d.Touches k p := by
  obtain ⟨j, hj, hpj⟩ := ht
  cases h with
  | append bytes _ hjumps => exact ⟨j, hjumps ▸ hj, hpj⟩
  | opened _ hjumps =>
    rw [hjumps, List.getElem?_append] at hj
    split at hj
    · exact ⟨j, hj, hpj⟩
    · have hlabel : j.label.offset = d.unit.size + 1 := by
        rw [List.mem_singleton.mp (List.mem_of_getElem? hj)]
      omega
  | closed w _ => exact ⟨j, hj, hpj⟩

/-- Bytes stay as they are as long as no jump is closed whose operand they are in. -/
theorem byte?_afterAll {es : List Edit} (hp : p < d.unit.size)
    (hk : ∀ k, .closeJump k ∈ es → ¬d.Touches k p) :
    (d.afterAll es).unit.byte? p = d.unit.byte? p := by
  induction es generalizing d with
  | nil => rfl
  | cons e es ih =>
    have hchanges := d.changes_after e
    have hlt : p < (d.after e).unit.size := Nat.lt_of_lt_of_le hp hchanges.size_le
    rw [afterAll_cons, ih hlt]
    · refine hchanges.byte? hp fun k hek => hk k ?_
      rw [hek]
      exact List.mem_cons_self
    · intro k hmem ht
      exact hk k (List.mem_cons_of_mem _ hmem) (hchanges.touches hp ht)

end Frame

/-- The operands of opened jumps are in the code, each right behind its operation code, and apart
from each other. -/
structure Orderly (d : Draft) : Prop where
  within : ∀ j ∈ d.jumps, 0 < j.label.offset ∧ j.label.offset + 2 ≤ d.unit.size
  opcode : ∀ j ∈ d.jumps, d.unit.byte? (j.label.offset - 1) = some j.op.byte
  apart : d.jumps.Pairwise fun i j => i.label.offset + 3 ≤ j.label.offset

theorem orderly_of_unit (u : CodeUnit) : Orderly ⟨u, []⟩ :=
  ⟨by simp, by simp, List.Pairwise.nil⟩

namespace Orderly

variable {d d' : Draft} {e : Edit} {i j : OpenedJump} {k l p : Nat}

theorem separate (h : d.Orderly) (hi : d.jumps[k]? = some i) (hj : d.jumps[l]? = some j) :
    k = l ∨ i.label.offset + 3 ≤ j.label.offset ∨ j.label.offset + 3 ≤ i.label.offset := by
  obtain ⟨hk, rfl⟩ := List.getElem?_eq_some_iff.mp hi
  obtain ⟨hl, rfl⟩ := List.getElem?_eq_some_iff.mp hj
  have hapart := List.pairwise_iff_getElem.mp h.apart
  rcases Nat.lt_trichotomy k l with hlt | heq | hgt
  · exact .inr (.inl (hapart k l hk hl hlt))
  · exact .inl heq
  · exact .inr (.inr (hapart l k hl hk hgt))

/-- No operand covers the operation code of a jump. -/
theorem not_touches_opcode (h : d.Orderly) (hj : d.jumps[l]? = some j) :
    ¬d.Touches k (j.label.offset - 1) := by
  rintro ⟨i, hi, hpi⟩
  have hpos := (h.within j (List.mem_of_getElem? hj)).1
  rcases h.separate hi hj with rfl | hapart
  · obtain rfl := Option.some.inj (hi.symm.trans hj)
    omega
  · omega

/-- No operand overlaps that of another jump. -/
theorem eq_of_touches (h : d.Orderly) (hj : d.jumps[l]? = some j)
    (hp : p = j.label.offset ∨ p = j.label.offset + 1) (ht : d.Touches k p) : k = l := by
  obtain ⟨i, hi, hpi⟩ := ht
  rcases h.separate hi hj with heq | hapart
  · exact heq
  · omega

theorem lt_size_of_touches (h : d.Orderly) (ht : d.Touches k p) : p < d.unit.size := by
  obtain ⟨j, hj, hp⟩ := ht
  have hin := (h.within j (List.mem_of_getElem? hj)).2
  omega

theorem changes (h : d.Orderly) (hc : d.Changes e d') : d'.Orderly := by
  -- For the jumps that were there, it is enough that the code only grows and keeps their codes.
  have hwithin : ∀ j ∈ d.jumps, 0 < j.label.offset ∧ j.label.offset + 2 ≤ d'.unit.size := by
    intro j hj
    have hin := h.within j hj
    have hsize := hc.size_le
    omega
  have hopcode : ∀ j ∈ d.jumps, d'.unit.byte? (j.label.offset - 1) = some j.op.byte := by
    intro j hj
    obtain ⟨l, hl⟩ := List.getElem?_of_mem hj
    have hin := h.within j hj
    rw [hc.byte? (by omega) fun k _ => h.not_touches_opcode hl]
    exact h.opcode j hj
  cases hc with
  | append bytes hcode hjumps => exact ⟨hjumps ▸ hwithin, hjumps ▸ hopcode, hjumps ▸ h.apart⟩
  | closed w hj => exact ⟨hwithin, hopcode, h.apart⟩
  | @opened op d' hcode hjumps =>
    have hsize : d'.unit.size = d.unit.size + 3 := CodeUnit.size_of_append hcode
    constructor
    · rw [hjumps, List.forall_mem_append]
      exact ⟨hwithin, List.forall_mem_singleton.mpr ⟨by simp, by simp only; omega⟩⟩
    · rw [hjumps, List.forall_mem_append]
      exact ⟨hopcode, List.forall_mem_singleton.mpr (CodeUnit.byte?_appended hcode 0)⟩
    · rw [hjumps, List.pairwise_append]
      refine ⟨h.apart, List.pairwise_singleton _ _, fun i hi j hj => ?_⟩
      obtain rfl := List.mem_singleton.mp hj
      have hin := h.within i hi
      simp only
      omega

theorem afterAll (h : d.Orderly) (es : List Edit) : (d.afterAll es).Orderly := by
  induction es generalizing d with
  | nil => exact h
  | cons e es ih => exact ih (h.changes (d.changes_after e))

/-- The operand of a jump stays as it is until the jump is closed. -/
theorem operand_kept (h : d.Orderly) (hj : d.jumps[k]? = some j)
    (hp : p = j.label.offset ∨ p = j.label.offset + 1) {later : List Edit}
    (hlater : .closeJump k ∉ later) : (d.afterAll later).unit.byte? p = d.unit.byte? p := by
  have hin := h.within j (List.mem_of_getElem? hj)
  refine byte?_afterAll (by omega) fun l hmem ht => ?_
  obtain rfl := h.eq_of_touches hj hp ht
  exact hlater hmem

theorem opcode_kept (h : d.Orderly) (hj : d.jumps[k]? = some j) (later : List Edit) :
    (d.afterAll later).unit.byte? (j.label.offset - 1) = some j.op.byte := by
  have hmem := List.mem_of_getElem? hj
  have hin := h.within j hmem
  rw [byte?_afterAll (by omega) fun l _ => h.not_touches_opcode hj, h.opcode j hmem]

/-- An instruction put behind the code covers no operand of an opened jump, so it stays for good. -/
theorem instr_kept (h : d.Orderly) (i : Instr) (later : List Edit) {n : Nat}
    (hn : n < i.encode.length) :
    ((d.withInstr i).afterAll later).unit.byte? (d.unit.size + n) = i.encode[n]? := by
  have hcode : (d.withInstr i).unit.code = d.unit.code ++ i.encode := rfl
  have hsize := CodeUnit.size_of_append hcode
  rw [byte?_afterAll (by omega) fun l _ ht => ?_, CodeUnit.byte?_appended hcode]
  have hlt : d.unit.size + n < d.unit.size := h.lt_size_of_touches ht
  omega

end Orderly

end Draft

/-- A jump to the position of an address leads to that address, also at the upper end. -/
theorem jumpFrom_positionOf {base : Nat} {distance : Int16} {target : UInt64}
    (h : base + distance.toInt = positionOf target) : jumpFrom base distance = target.toNat := by
  have hposition : positionOf target =
      if 2 * target.toNat < UInt64.size then (target.toNat : Int)
      else target.toNat - UInt64.size :=
    BitVec.toInt_eq_toNat_cond target.toBitVec
  have hlt := target.toNat_lt
  -- A position below zero stands for an address of the upper half, and is taken back to it.
  unfold jumpFrom addressOf
  simp only [h, hposition, UInt64.size]
  split <;> split <;> omega

namespace CodeUnit

variable {u : CodeUnit} {distance : Int16}

/-- The operand of the jump `j` leads to `target`, and so does the instruction it belongs to, where
that is a jump by its operation code. -/
def JumpsTo (u : CodeUnit) (j : OpenedJump) (target : Nat) : Prop :=
  ∃ distance, u.signedWord? j.label.offset = some distance ∧
    jumpFrom (j.label.offset + 2) distance = target ∧
    (j.op.isJump → ∃ i, u.instr? (j.label.offset - 1) = some i ∧ i.opcode = j.op ∧
      Located.target? ⟨j.label.offset - 1, i⟩ = some target)

def LoopsTo (u : CodeUnit) (offset : Nat) (target : UInt64) : Prop :=
  ∃ distance, u.instr? offset = some (.jump distance) ∧
    jumpFrom (offset + 3) distance = target.toNat ∧
    Located.target? ⟨offset, .jump distance⟩ = some (positionOf target)

theorem jumpsTo_of_bytes {j : OpenedJump} {target : Nat} (hpos : 0 < j.label.offset)
    (hop : u.byte? (j.label.offset - 1) = some j.op.byte)
    (hhigh : u.byte? j.label.offset = some (distance.toUInt16 >>> 8).toUInt8)
    (hlow : u.byte? (j.label.offset + 1) = some distance.toUInt16.toUInt8)
    (hdistance : distance.toInt = target - (j.label.offset + 2)) : u.JumpsTo j target := by
  have hword : u.signedWord? j.label.offset = some distance :=
    carries_signedWord.mp ⟨hhigh, hlow, trivial⟩
  refine ⟨distance, hword, jumpFrom_eq (by push_cast; omega), fun hjump => ?_⟩
  have hoffset : j.label.offset - 1 + 1 = j.label.offset := by omega
  obtain ⟨i, hi, hopcode, htarget⟩ := instr?_of_jump hjump hop (by rw [hoffset]; exact hword)
  refine ⟨i, hi, hopcode, ?_⟩
  rw [htarget, hdistance]
  congr 1
  omega

theorem loopsTo_of_bytes {offset : Nat} {target : UInt64}
    (hop : u.byte? offset = some Opcode.jump.byte)
    (hhigh : u.byte? (offset + 1) = some (distance.toUInt16 >>> 8).toUInt8)
    (hlow : u.byte? (offset + 2) = some distance.toUInt16.toUInt8)
    (hdistance : distance.toInt = positionOf target - (offset + 3)) : u.LoopsTo offset target := by
  have hinstr : u.instr? offset = some (.jump distance) :=
    instr?_eq_some_iff.mpr ⟨hop, hhigh, hlow, trivial⟩
  have htarget : Located.target? ⟨offset, .jump distance⟩ =
      some (offset + 3 + distance.toInt) := rfl
  refine ⟨distance, hinstr, jumpFrom_positionOf (by push_cast; omega), ?_⟩
  rw [htarget, hdistance]
  congr 1
  omega

end CodeUnit

def InReach (distance : Int) : Prop :=
  -32768 ≤ distance ∧ distance ≤ 32767

theorem jumpOperand?_of_inReach {distance : Int} (h : InReach distance) :
    ∃ operand, jumpOperand? distance = some operand ∧ operand.toInt = distance := by
  obtain ⟨operand, hoperand⟩ := Option.isSome_iff_exists.mp ((isSome_jumpOperand? distance).mpr h)
  exact ⟨operand, hoperand, toInt_of_jumpOperand? hoperand⟩

theorem jumpOperand?_of_not_inReach {distance : Int} (h : ¬InReach distance) :
    jumpOperand? distance = none :=
  Option.not_isSome_iff_eq_none.mp (mt (isSome_jumpOperand? distance).mp h)

namespace Draft

/-- What comes of closing the jump `j`, which has number `k`. It is refused if the end of the code
is out of reach. Else nothing changes but the two bytes of its operand, which lie in the code; and
the jump leads to what was the end of the code then, whatever is done later, until it is closed
again. -/
structure ClosesExactly (d : Draft) (k : Nat) (j : OpenedJump) : Prop where
  within : j.label.offset + 2 ≤ d.unit.size
  refused : d.perform (.closeJump k) = .error .jumpTooFar d ↔
    ¬InReach (d.unit.size - (j.label.offset + 2))
  done : InReach (d.unit.size - (j.label.offset + 2)) → ∃ code d',
    d.perform (.closeJump k) = .ok () d' ∧ d' = { d with unit := { d.unit with code := code } } ∧
    (∀ p, p ≠ j.label.offset → p ≠ j.label.offset + 1 → code[p]? = d.unit.code[p]?) ∧
    ∀ later, .closeJump k ∉ later → (d'.afterAll later).unit.JumpsTo j d.unit.size

/-- What comes of a jump back to `target`. It is refused if the target is out of reach. Else a jump
is put behind the code that leads to the target, whatever is done later. -/
structure LoopsExactly (d : Draft) (target : UInt64) : Prop where
  refused : d.perform (.jumpBack target) = .error .jumpTooFar d ↔
    ¬InReach (positionOf target - (d.unit.size + 3))
  done : InReach (positionOf target - (d.unit.size + 3)) → ∃ distance d',
    d.perform (.jumpBack target) = .ok () d' ∧ d' = d.withInstr (.jump distance) ∧
    ∀ later, (d'.afterAll later).unit.LoopsTo d.unit.size target

variable {d : Draft}

theorem Orderly.closesExactly (h : d.Orderly) {k : Nat} {j : OpenedJump}
    (hj : d.jumps[k]? = some j) : d.ClosesExactly k j := by
  have hin := h.within j (List.mem_of_getElem? hj)
  refine ⟨hin.2, ⟨fun hrefused hreach => ?_, fun hfar => ?_⟩, fun hreach => ?_⟩
  · obtain ⟨distance, hd, -⟩ := jumpOperand?_of_inReach hreach
    rw [closeJump_done hj hd] at hrefused
    cases hrefused
  · exact closeJump_refused hj (jumpOperand?_of_not_inReach hfar)
  · obtain ⟨distance, hd, hdistance⟩ := jumpOperand?_of_inReach hreach
    refine ⟨_, _, closeJump_done hj hd, rfl, fun p hhigh hlow => ?_, fun later hlater => ?_⟩
    · exact CodeUnit.byte?_setWord_of_ne _ hhigh hlow
    · -- The operands are still apart, so closing other jumps later does not reach this one.
      have h' : Orderly { d with unit := d.unit.setWord j.label.offset distance.toUInt16 } :=
        h.changes (.closed _ hj)
      refine CodeUnit.jumpsTo_of_bytes hin.1 (h'.opcode_kept hj later) ?_ ?_ hdistance
      · rw [h'.operand_kept hj (.inl rfl) hlater]
        exact CodeUnit.byte?_setWord_high _ hin.2
      · rw [h'.operand_kept hj (.inr rfl) hlater]
        exact CodeUnit.byte?_setWord_low _ hin.2

theorem Orderly.loopsExactly (h : d.Orderly) (target : UInt64) : d.LoopsExactly target := by
  refine ⟨⟨fun hrefused hreach => ?_, fun hfar => ?_⟩, fun hreach => ?_⟩
  · obtain ⟨distance, hd, -⟩ := jumpOperand?_of_inReach hreach
    rw [jumpBack_done hd] at hrefused
    cases hrefused
  · exact jumpBack_refused (jumpOperand?_of_not_inReach hfar)
  · obtain ⟨distance, hd, hdistance⟩ := jumpOperand?_of_inReach hreach
    refine ⟨distance, _, jumpBack_done hd, rfl, fun later => ?_⟩
    have hkept (n : Nat) (hn : n < 3) := h.instr_kept (.jump distance) later hn
    exact CodeUnit.loopsTo_of_bytes (hkept 0 (by decide)) (hkept 1 (by decide))
      (hkept 2 (by decide)) hdistance

/-- What is opened can be closed, jumps lead where they should, and a refusal changes nothing. -/
structure ResolvesJumps (d : Draft) : Prop where
  opens : ∀ op, ∃ d', d.perform (.openJump op) = .ok () d' ∧
    d'.jumps = d.jumps ++ [⟨op, ⟨d.unit.size + 1⟩⟩]
  closes : ∀ k j, d.jumps[k]? = some j → d.ClosesExactly k j
  loops : ∀ target, d.LoopsExactly target
  refused : ∀ e reason d', d.perform e = .error reason d' → d' = d

end Draft

/-- At every point of building a unit, with steps of all kinds done or refused before, each opened
jump can be closed and jumps back can be made: they resolve to their targets for good, fail exactly
when the target is out of reach, and no step that fails leaves a trace. -/
theorem jumps_resolve_exactly (u : CodeUnit) (history : List Edit) :
    (Draft.afterAll ⟨u, []⟩ history).ResolvesJumps := by
  have h := (Draft.orderly_of_unit u).afterAll history
  exact
    { opens := fun op => ⟨_, rfl, rfl⟩
      closes := fun k j hj => h.closesExactly hj
      loops := h.loopsExactly
      refused := fun e reason d' => Draft.eq_of_refused }

/-- Two jumps that are open at once and closed in the order they were opened, with a jump back to
the second of them in between. -/
def Demo.crossing : List Edit :=
  [.openJump .forIter, .openJump .jump, .appendOp .pop, .closeJump 0, .jumpBack 3, .closeJump 1]

example : (Draft.afterAll ⟨{ name := "crossing", function := 0 }, []⟩ Demo.crossing).unit.code =
    #[0x51, 0x00, 0x04, 0x40, 0x00, 0x04, 0x01, 0x40, 0xff, 0xf9] := by decide

end Tiered
