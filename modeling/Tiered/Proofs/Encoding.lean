import Tiered.Code.Verification

/-! Instructions in the bytes of a unit. Where verification finds an instruction, its encoding
stands in the code, and the other way round. So the code of a unit decodes exactly when it is a
sequence of encoded instructions, and decoding gives that sequence with its offsets. -/
namespace Tiered

theorem toNat_wordOfBytes (hi lo : UInt8) :
    (wordOfBytes hi lo).toNat = hi.toNat * 256 + lo.toNat := by
  have hhi := hi.toNat_lt
  have hlo := lo.toNat_lt
  have hshift : hi.toNat <<< 8 = hi.toNat * 256 := Nat.shiftLeft_eq _ _
  have hor : hi.toNat <<< 8 ||| lo.toNat = hi.toNat <<< 8 + lo.toNat :=
    (Nat.shiftLeft_add_eq_or_of_lt (by omega) _).symm
  simp only [wordOfBytes, UInt16.toNat_or, UInt16.toNat_shiftLeft, UInt8.toNat_toUInt16,
    UInt16.reduceToNat, Nat.reduceMod, Nat.reducePow]
  rw [Nat.mod_eq_of_lt (by omega), hor]
  omega

theorem wordOfBytes_wordBytes (w : UInt16) :
    wordOfBytes (w >>> 8).toUInt8 w.toUInt8 = w := by
  have hw := w.toNat_lt
  apply UInt16.toNat_inj.mp
  simp only [toNat_wordOfBytes, UInt16.toNat_toUInt8, UInt16.toNat_shiftRight, UInt16.reduceToNat,
    Nat.reduceMod, Nat.reducePow, Nat.shiftRight_eq_div_pow]
  omega

theorem wordBytes_wordOfBytes (hi lo : UInt8) : wordBytes (wordOfBytes hi lo) = [hi, lo] := by
  have hlo := lo.toNat_lt
  have hhi := hi.toNat_lt
  have hw := toNat_wordOfBytes hi lo
  have hhigh : (wordOfBytes hi lo >>> 8).toUInt8 = hi := by
    apply UInt8.toNat_inj.mp
    simp only [UInt16.toNat_toUInt8, UInt16.toNat_shiftRight, UInt16.reduceToNat, Nat.reduceMod,
      Nat.reducePow, hw, Nat.shiftRight_eq_div_pow]
    omega
  have hlow : (wordOfBytes hi lo).toUInt8 = lo := by
    apply UInt8.toNat_inj.mp
    simp only [UInt16.toNat_toUInt8, hw]
    omega
  rw [wordBytes, hhigh, hlow]

def codeSize : List Instr → Nat
  | [] => 0
  | i :: is => i.size + codeSize is

@[simp] theorem codeSize_nil : codeSize [] = 0 := rfl

@[simp] theorem codeSize_cons (i : Instr) (is : List Instr) :
    codeSize (i :: is) = i.size + codeSize is := rfl

@[simp] theorem codeSize_append (is js : List Instr) :
    codeSize (is ++ js) = codeSize is + codeSize js := by
  induction is with
  | nil => simp
  | cons i is ih => simp [ih, Nat.add_assoc]

theorem Instr.size_pos (i : Instr) : 0 < i.size :=
  i.opcode.size_pos

theorem length_le_codeSize (is : List Instr) : is.length ≤ codeSize is := by
  induction is with
  | nil => simp
  | cons i is ih =>
    have := i.size_pos
    simp only [List.length_cons, codeSize_cons]
    omega

def encodeAll (is : List Instr) : List UInt8 :=
  is.flatMap Instr.encode

@[simp] theorem encodeAll_nil : encodeAll [] = [] := rfl

@[simp] theorem encodeAll_cons (i : Instr) (is : List Instr) :
    encodeAll (i :: is) = i.encode ++ encodeAll is := rfl

@[simp] theorem encodeAll_append (is js : List Instr) :
    encodeAll (is ++ js) = encodeAll is ++ encodeAll js := by
  simp [encodeAll]

@[simp] theorem length_encodeAll (is : List Instr) : (encodeAll is).length = codeSize is := by
  induction is with
  | nil => rfl
  | cons i is ih => simp [Instr.length_encode, ih]

namespace CodeUnit

theorem byte?_eq_toList (u : CodeUnit) (offset : Nat) :
    u.byte? offset = u.code.toList[offset]? := by
  simp [byte?]

/-- The bytes stand in the code one right after the other from `offset` on. -/
def Carries (u : CodeUnit) : Nat → List UInt8 → Prop
  | _, [] => True
  | offset, b :: bytes => u.byte? offset = some b ∧ u.Carries (offset + 1) bytes

section Carries

variable {u : CodeUnit} {offset : Nat} {bytes : List UInt8}

theorem carries_of_toList {pre post : List UInt8} (h : u.code.toList = pre ++ bytes ++ post) :
    u.Carries pre.length bytes := by
  induction bytes generalizing pre with
  | nil => trivial
  | cons b bytes ih =>
    have hb : u.byte? pre.length = some b := by
      rw [byte?_eq_toList, h]
      simp
    have hrest : u.Carries (pre ++ [b]).length bytes := ih (by simpa using h)
    exact ⟨hb, by simpa using hrest⟩

theorem drop_eq_cons_of_byte? {b : UInt8} (h : u.byte? offset = some b) :
    u.code.toList.drop offset = b :: u.code.toList.drop (offset + 1) := by
  rw [byte?_eq_toList] at h
  obtain ⟨hlt, hb⟩ := List.getElem?_eq_some_iff.mp h
  rw [List.drop_eq_getElem_cons hlt, hb]

theorem Carries.drop_eq (h : u.Carries offset bytes) :
    u.code.toList.drop offset = bytes ++ u.code.toList.drop (offset + bytes.length) := by
  induction bytes generalizing offset with
  | nil => simp
  | cons b bytes ih =>
    rw [drop_eq_cons_of_byte? h.1, ih h.2, List.cons_append, List.length_cons]
    congr 3
    omega

theorem Carries.lt_size {b : UInt8} (h : u.Carries offset (b :: bytes)) :
    offset + bytes.length < u.size := by
  induction bytes generalizing offset b with
  | nil => exact (Array.getElem?_eq_some_iff.mp h.1).1
  | cons c bytes ih =>
    have hrest := ih h.2
    rw [List.length_cons]
    omega

end Carries

section Operands

variable {u : CodeUnit} {offset : Nat}

theorem carries_wordBytes {w : UInt16} :
    u.Carries offset (wordBytes w) ↔ u.word? offset = some w := by
  simp only [word?, Option.bind_eq_bind, Option.bind_eq_some_iff, Option.pure_def,
    Option.some.injEq]
  constructor
  · rintro ⟨hhi, hlo, -⟩
    exact ⟨_, hhi, _, hlo, wordOfBytes_wordBytes w⟩
  · rintro ⟨hi, hhi, lo, hlo, rfl⟩
    rw [wordBytes_wordOfBytes]
    exact ⟨hhi, hlo, trivial⟩

theorem carries_signedWord {d : Int16} :
    u.Carries offset (wordBytes d.toUInt16) ↔ u.signedWord? offset = some d := by
  rw [carries_wordBytes, signedWord?, Option.map_eq_some_iff]
  constructor
  · intro h
    exact ⟨_, h, Int16.toInt16_toUInt16 d⟩
  · rintro ⟨w, hw, rfl⟩
    rwa [UInt16.toUInt16_toInt16]

theorem carries_signedByte {n : Int8} :
    u.Carries offset [n.toUInt8] ↔ u.signedByte? offset = some n := by
  rw [signedByte?, Option.map_eq_some_iff]
  constructor
  · rintro ⟨hb, -⟩
    exact ⟨_, hb, Int8.toInt8_toUInt8 n⟩
  · rintro ⟨b, hb, rfl⟩
    rw [UInt8.toUInt8_toInt8]
    exact ⟨hb, trivial⟩

theorem exists_byte? (h : offset < u.size) : ∃ b, u.byte? offset = some b :=
  ⟨_, Array.getElem?_eq_getElem h⟩

theorem exists_word? (h : offset + 1 < u.size) : ∃ w, u.word? offset = some w := by
  obtain ⟨hi, hhi⟩ := exists_byte? (Nat.lt_of_succ_lt h)
  obtain ⟨lo, hlo⟩ := exists_byte? h
  exact ⟨wordOfBytes hi lo, by simp [word?, hhi, hlo]⟩

end Operands

section Decoding

variable {u : CodeUnit} {offset : Nat} {i : Instr}

@[simp] theorem opcode_instrAt (u : CodeUnit) (offset : Nat) (op : Opcode) :
    (u.instrAt offset op).opcode = op := by
  cases op <;> rfl

/-- Verification reads the operand that was written. -/
theorem instrAt_of_carries (h : u.Carries (offset + 1) i.immediate) :
    u.instrAt offset i.opcode = i := by
  cases i with
  | pop | pushNone | ret | getIter | add => rfl
  | pushSmall n =>
    rw [Instr.opcode, instrAt, carries_signedByte.mp h]
    rfl
  | call n =>
    rw [Instr.opcode, instrAt, h.1]
    rfl
  | jump d | forIter d =>
    rw [Instr.opcode, instrAt, carries_signedWord.mp h]
    rfl
  | _ w =>
    rw [Instr.opcode, instrAt, carries_wordBytes.mp h]
    rfl

/-- What verification reads is in the code, if the code is long enough. -/
theorem carries_instrAt {op : Opcode} (h : offset + op.size ≤ u.size) :
    u.Carries (offset + 1) (u.instrAt offset op).immediate := by
  have hbyte (hsize : op.size = 2) : ∃ b, u.byte? (offset + 1) = some b :=
    exists_byte? (by omega)
  have hword (hsize : op.size = 3) : ∃ w, u.word? (offset + 1) = some w :=
    exists_word? (by omega)
  cases op with
  | pop | pushNone | ret | getIter | add => trivial
  | pushSmall =>
    obtain ⟨b, hb⟩ := hbyte rfl
    exact carries_signedByte.mpr (by simp [signedByte?, hb])
  | call =>
    obtain ⟨b, hb⟩ := hbyte rfl
    exact ⟨by simp [hb], trivial⟩
  | jump | forIter =>
    obtain ⟨w, hw⟩ := hword rfl
    exact carries_signedWord.mpr (by simp [signedWord?, hw])
  | _ =>
    obtain ⟨w, hw⟩ := hword rfl
    exact carries_wordBytes.mpr (by simp [hw])

theorem Carries.next_le (h : u.Carries offset i.encode) : offset + i.size ≤ u.size := by
  have hlt := h.lt_size
  have hlen := i.length_encode
  rw [Instr.encode, List.length_cons] at hlen
  omega

/-- The instruction that verification finds at `offset`. -/
def instr? (u : CodeUnit) (offset : Nat) : Option Instr := do
  let byte ← u.byte? offset
  let l ← (u.decodeAt offset byte).toOption
  return l.instr

/-- At an offset, verification finds the instruction whose encoding stands there. -/
theorem instr?_eq_some_iff : u.instr? offset = some i ↔ u.Carries offset i.encode := by
  simp only [instr?, Option.bind_eq_bind, Option.bind_eq_some_iff, Option.pure_def,
    Option.some.injEq]
  constructor
  · rintro ⟨byte, hb, l, hl, rfl⟩
    unfold decodeAt at hl
    cases hop : Opcode.ofByte? byte with
    | none => simp [hop, Except.toOption] at hl
    | some op =>
      simp only [hop] at hl
      split at hl
      · cases hl
      · rename_i hfits
        obtain rfl := Option.some.inj hl
        have hbyte : op.byte = byte := Opcode.byte_of_ofByte? hop
        refine ⟨?_, carries_instrAt (by omega)⟩
        rw [opcode_instrAt, hbyte, hb]
  · intro h
    have hfits : ¬u.size < offset + i.opcode.size := Nat.not_lt.mpr h.next_le
    refine ⟨_, h.1, ⟨offset, i⟩, ?_, rfl⟩
    simp only [decodeAt, Opcode.ofByte?_byte, if_neg hfits, instrAt_of_carries h.2]
    rfl

theorem decodeAt_eq_ok_iff {byte : UInt8} {l : Located} (hb : u.byte? offset = some byte) :
    u.decodeAt offset byte = .ok l ↔ ∃ i, u.instr? offset = some i ∧ l = ⟨offset, i⟩ := by
  simp only [instr?, hb, Option.bind_some, Option.bind_eq_bind, Option.bind_eq_some_iff,
    Option.pure_def, Option.some.injEq]
  unfold decodeAt
  cases Opcode.ofByte? byte with
  | none => simp [Except.toOption]
  | some op =>
    simp only
    split <;> simp [Except.toOption, eq_comm]

theorem instr?_of_bytes {pre post : List UInt8} (h : u.code.toList = pre ++ i.encode ++ post) :
    u.instr? pre.length = some i :=
  instr?_eq_some_iff.mpr (carries_of_toList h)

theorem instr?_next_le (h : u.instr? offset = some i) : offset + i.size ≤ u.size :=
  (instr?_eq_some_iff.mp h).next_le

theorem drop_eq_encode_append (h : u.instr? offset = some i) :
    u.code.toList.drop offset = i.encode ++ u.code.toList.drop (offset + i.size) := by
  rw [← i.length_encode]
  exact (instr?_eq_some_iff.mp h).drop_eq

end Decoding

/-- The instructions stand in the code one right after the other from `offset` on. -/
def Holds (u : CodeUnit) : Nat → List Instr → Prop
  | _, [] => True
  | offset, i :: is => u.instr? offset = some i ∧ u.Holds (offset + i.size) is

@[simp] theorem holds_nil (u : CodeUnit) (offset : Nat) : u.Holds offset [] := trivial

@[simp] theorem holds_cons (u : CodeUnit) (offset : Nat) (i : Instr) (is : List Instr) :
    u.Holds offset (i :: is) ↔ u.instr? offset = some i ∧ u.Holds (offset + i.size) is := Iff.rfl

@[simp] theorem holds_append (u : CodeUnit) (offset : Nat) (is js : List Instr) :
    u.Holds offset (is ++ js) ↔ u.Holds offset is ∧ u.Holds (offset + codeSize is) js := by
  induction is generalizing offset with
  | nil => simp
  | cons i is ih => simp [ih, and_assoc, Nat.add_assoc]

theorem holds_of_bytes {u : CodeUnit} {is : List Instr} {pre post : List UInt8}
    (h : u.code.toList = pre ++ encodeAll is ++ post) : u.Holds pre.length is := by
  induction is generalizing pre with
  | nil => trivial
  | cons i is ih =>
    have hi : u.instr? pre.length = some i :=
      instr?_of_bytes (show _ = pre ++ i.encode ++ (encodeAll is ++ post) by
        simpa [List.append_assoc] using h)
    have hs : (pre ++ i.encode).length = pre.length + i.size := by
      rw [List.length_append, i.length_encode]
    have hr : u.Holds (pre ++ i.encode).length is := ih (by simpa [List.append_assoc] using h)
    exact ⟨hi, hs ▸ hr⟩

theorem Holds.drop_eq {u : CodeUnit} {offset : Nat} {is : List Instr} (h : u.Holds offset is) :
    u.code.toList.drop offset = encodeAll is ++ u.code.toList.drop (offset + codeSize is) := by
  induction is generalizing offset with
  | nil => simp
  | cons i is ih =>
    rw [drop_eq_encode_append h.1, ih h.2, encodeAll_cons, codeSize_cons, List.append_assoc,
      Nat.add_assoc]

/-- The instructions make up the code exactly when the code is their encoding. -/
theorem toList_eq_encodeAll_iff {u : CodeUnit} {is : List Instr} :
    u.code.toList = encodeAll is ↔ u.Holds 0 is ∧ codeSize is = u.size := by
  constructor
  · intro h
    have hholds : u.Holds ([] : List UInt8).length is :=
      holds_of_bytes (show _ = [] ++ encodeAll is ++ [] by simpa using h)
    exact ⟨hholds, by rw [← length_encodeAll, ← h, Array.length_toList]; rfl⟩
  · rintro ⟨hholds, hsize⟩
    have hdrop := hholds.drop_eq
    rw [List.drop_zero, Nat.zero_add, hsize] at hdrop
    have hend : u.code.toList.drop u.size = [] := by
      apply List.drop_eq_nil_of_le
      rw [Array.length_toList]
      exact Nat.le_refl _
    rw [hdrop, hend, List.append_nil]

end CodeUnit

/-- The instructions with their offsets, the first of which is `offset`. -/
def locate : Nat → List Instr → List Located
  | _, [] => []
  | offset, i :: is => ⟨offset, i⟩ :: locate (offset + i.size) is

theorem getElem?_locate (offset : Nat) (is : List Instr) (k : Nat) :
    (locate offset is)[k]? = is[k]?.map fun i => ⟨offset + codeSize (is.take k), i⟩ := by
  induction is generalizing offset k with
  | nil => simp [locate]
  | cons i is ih =>
    cases k with
    | zero => simp [locate]
    | succ k => simp [locate, ih, Nat.add_assoc]

@[simp] theorem length_locate (offset : Nat) (is : List Instr) :
    (locate offset is).length = is.length := by
  induction is generalizing offset with
  | nil => rfl
  | cons i is ih => simp [locate, ih]

theorem map_instr_locate (offset : Nat) (is : List Instr) :
    (locate offset is).map Located.instr = is := by
  induction is generalizing offset with
  | nil => rfl
  | cons i is ih => simp [locate, ih]

namespace CodeUnit

theorem Holds.instr?_of_mem {u : CodeUnit} {offset : Nat} {is : List Instr} (h : u.Holds offset is)
    {l : Located} (hl : l ∈ locate offset is) : u.instr? l.offset = some l.instr := by
  induction is generalizing offset with
  | nil => cases hl
  | cons i is ih =>
    rcases List.mem_cons.mp hl with rfl | hl
    · exact h.1
    · exact ih h.2 hl

theorem decodeFrom_of_holds {u : CodeUnit} {is : List Instr} {fuel offset : Nat}
    {acc : Array Located} (hh : u.Holds offset is) (he : offset + codeSize is = u.size)
    (hf : is.length ≤ fuel) :
    u.decodeFrom fuel offset acc = .ok (acc ++ (locate offset is).toArray) := by
  induction is generalizing fuel offset acc with
  | nil =>
    have hend : u.byte? offset = none := by
      simp only [codeSize_nil, Nat.add_zero] at he
      simp [byte?, he, size]
    cases fuel <;> simp [decodeFrom, hend, locate]
  | cons i is ih =>
    obtain ⟨hi, hr⟩ := hh
    obtain ⟨fuel, rfl⟩ : ∃ n, fuel = n + 1 := ⟨fuel - 1, by simp at hf; omega⟩
    have hlt : offset < u.size := by
      have := instr?_next_le hi
      have := i.size_pos
      omega
    obtain ⟨byte, hb⟩ := exists_byte? hlt
    have hd := (decodeAt_eq_ok_iff hb).mpr ⟨i, hi, rfl⟩
    have hrest : u.decodeFrom fuel (offset + i.size) (acc.push ⟨offset, i⟩) = _ :=
      ih hr (by simp only [codeSize_cons] at he; omega) (by simpa using hf)
    rw [decodeFrom, hb]
    simp only [hd, bind, Except.bind, Located.next, hrest]
    simp [locate]

theorem holds_of_decodeFrom {u : CodeUnit} {fuel offset : Nat} {acc code : Array Located}
    (hd : u.decodeFrom fuel offset acc = .ok code) (hf : u.size ≤ offset + fuel)
    (ho : offset ≤ u.size) :
    ∃ is, u.Holds offset is ∧ offset + codeSize is = u.size ∧
      code = acc ++ (locate offset is).toArray := by
  induction fuel generalizing offset acc with
  | zero =>
    obtain rfl := Except.ok.inj hd
    exact ⟨[], trivial, by simp; omega, by simp [locate]⟩
  | succ fuel ih =>
    rw [decodeFrom] at hd
    cases hb : u.byte? offset with
    | none =>
      simp only [hb] at hd
      obtain rfl := Except.ok.inj hd
      have : u.size ≤ offset := Array.getElem?_eq_none_iff.mp hb
      exact ⟨[], trivial, by simp; omega, by simp [locate]⟩
    | some byte =>
      simp only [hb, bind, Except.bind] at hd
      cases hl : u.decodeAt offset byte with
      | error e => simp [hl] at hd
      | ok l =>
        simp only [hl] at hd
        obtain ⟨i, hi, rfl⟩ := (decodeAt_eq_ok_iff hb).mp hl
        have hn := instr?_next_le hi
        have hp := i.size_pos
        obtain ⟨is, hh, he, rfl⟩ := ih hd (by simp [Located.next]; omega) hn
        refine ⟨i :: is, ⟨hi, hh⟩, ?_, by simp [locate, Located.next]⟩
        simp only [Located.next] at he
        simp only [codeSize_cons]
        omega

/-- Code decodes exactly when it is a sequence of instructions. -/
theorem decode_eq_ok_iff {u : CodeUnit} {code : Array Located} :
    u.decode = .ok code ↔
      ∃ is, u.Holds 0 is ∧ codeSize is = u.size ∧ code = (locate 0 is).toArray := by
  constructor
  · intro h
    obtain ⟨is, hh, he, rfl⟩ := holds_of_decodeFrom h (by omega) (by omega)
    exact ⟨is, hh, by omega, by simp⟩
  · rintro ⟨is, hh, he, rfl⟩
    have hlen := length_le_codeSize is
    rw [decode, decodeFrom_of_holds hh (by omega) (by omega)]
    simp

end CodeUnit

end Tiered
