import Tiered.Proofs.Halting

/-! One format with one writer and three readers. What the builder writes is what verification
decodes, what a listing shows and what the machine executes, instruction by instruction and offset
by offset. -/
namespace Tiered

namespace Build

/-- Writes an instruction by the step for the width of its immediate. -/
def write : Instr → Build Unit
  | .pop => appendOp .pop
  | .pushNone => appendOp .pushNone
  | .pushSmall n => appendByte .pushSmall n.toUInt8
  | .pushConstant index => appendWord .pushConstant index
  | .loadLocal slot => appendWord .loadLocal slot
  | .storeLocal slot => appendWord .storeLocal slot
  | .loadGlobal slot => appendWord .loadGlobal slot
  | .storeGlobal slot => appendWord .storeGlobal slot
  | .loadUniversal index => appendWord .loadUniversal index
  | .jump distance => appendWord .jump distance.toUInt16
  | .call argc => appendByte .call argc
  | .ret => appendOp .ret
  | .getIter => appendOp .getIter
  | .forIter distance => appendWord .forIter distance.toUInt16
  | .makeFunction index => appendWord .makeFunction index
  | .add => appendOp .add

def writeAll : List Instr → Build Unit
  | [] => pure ()
  | i :: is => do
    write i
    writeAll is

theorem write_eq (i : Instr) : write i = appendInstr i := by
  cases i <;> rfl

theorem writeAll_eq (is : List Instr) (u : CodeUnit) :
    writeAll is u = .ok () { u with code := u.code ++ (encodeAll is).toArray } := by
  induction is generalizing u with
  | nil =>
    have hcode : u.code ++ ([] : List UInt8).toArray = u.code := by simp
    rw [encodeAll_nil, hcode]
    rfl
  | cons i is ih =>
    have hi : write i u = .ok () { u with code := u.code ++ i.encode } := by
      rw [write_eq]
      rfl
    have hcode : u.code ++ i.encode ++ (encodeAll is).toArray =
        u.code ++ (encodeAll (i :: is)).toArray := by
      apply Array.toList_inj.mp
      simp
    change EStateM.bind (write i) (fun _ => writeAll is) u = _
    unfold EStateM.bind
    rw [hi]
    simp only [ih, hcode]

end Build

/-- Located instructions follow each other without a gap, and the last ends where they all do. -/
theorem next_of_locate {is : List Instr} {offset k : Nat} {l : Located}
    (h : (locate offset is)[k]? = some l) :
    ((locate offset is)[k + 1]?.map Located.offset).getD (offset + codeSize is) = l.next := by
  induction is generalizing offset k with
  | nil => cases h
  | cons i is ih =>
    rw [codeSize_cons, ← Nat.add_assoc]
    cases k with
    | succ k => exact ih h
    | zero =>
      obtain rfl : ⟨offset, i⟩ = l := Option.some.inj h
      cases is with
      | nil => rfl
      | cons j is => rfl

namespace CodeUnit

variable {u : CodeUnit}

/-- The code of a unit that is written from nothing decodes to what was written. -/
theorem decode_written (is : List Instr) (h : u.code = (encodeAll is).toArray) :
    u.decode = .ok (locate 0 is).toArray := by
  obtain ⟨hholds, hsize⟩ := toList_eq_encodeAll_iff.mp (show u.code.toList = encodeAll is by rw [h])
  exact decode_eq_ok_iff.mpr ⟨is, hholds, hsize, rfl⟩

/-- The operand of an instruction as its line shows it: a number with its sign, the target of a
jump, an index with what it stands for. -/
def shownOperand (u : CodeUnit) (l : Located) : String :=
  match l.instr with
  | .pop | .pushNone | .ret | .getIter | .add => ""
  | .pushSmall n => s!" {n.toInt}"
  | .call n => s!" {n}"
  | .jump d | .forIter d => " -> " ++ Text.hex 4 (addressOf (l.next + d.toInt))
  | .pushConstant i =>
    let text := ((u.constantAt? i).map Value.repr).getD "???"
    s!" #{i} ({text})"
  | .loadUniversal i =>
    let text := (u.nameAt? i).getD "???"
    s!" #{i} ({text})"
  | .loadLocal i | .storeLocal i =>
    let text := u.nameOfLocal i
    s!" {i} ({text})"
  | .loadGlobal i | .storeGlobal i =>
    let text := u.nameOfGlobal i
    s!" {i} ({text})"
  | .makeFunction i =>
    match u.functionAt? i with
    | some id => s!" #{i} (fn #{id})"
    | none => s!" #{i} (???)"

def lineOf (u : CodeUnit) (l : Located) : String :=
  Text.hex 4 l.offset ++ " " ++ (l.instr.opcode.mnemonic ++ u.shownOperand l)

/-- The listing reads the operand that was written. -/
theorem operandText_of_carries {offset : Nat} {i : Instr}
    (h : u.Carries (offset + 1) i.immediate) :
    u.operandText offset i.opcode = u.shownOperand ⟨offset, i⟩ := by
  cases i with
  | pop | pushNone | ret | getIter | add => rfl
  | pushSmall n =>
    have hb : u.byte? (offset + 1) = some n.toUInt8 := h.1
    simp only [Instr.opcode, operandText, Opcode.operandSize, hb, Option.getD_some,
      Int8.toInt8_toUInt8]
    rfl
  | call n =>
    simp only [Instr.opcode, operandText, Opcode.operandSize, h.1, Option.getD_some]
    rfl
  | jump d | forIter d =>
    have hw : u.word? (offset + 1) = some d.toUInt16 := carries_wordBytes.mp h
    simp only [Instr.opcode, operandText, Opcode.operandSize, hw, Option.getD_some,
      Int16.toInt16_toUInt16]
    rfl
  | _ w =>
    have hw : u.word? (offset + 1) = some w := carries_wordBytes.mp h
    simp only [Instr.opcode, operandText, Opcode.operandSize, hw, Option.getD_some]
    rfl

theorem lineAt_of_instr? {offset : Nat} {i : Instr} (h : u.instr? offset = some i) :
    u.lineAt offset =
      (i.opcode.mnemonic ++ u.shownOperand ⟨offset, i⟩, offset + i.size) := by
  obtain ⟨hbyte, himmediate⟩ := instr?_eq_some_iff.mp h
  have hop : u.opcode? offset = some i.opcode := by simp [opcode?, hbyte]
  simp only [lineAt, hop, operandText_of_carries himmediate]
  rfl

theorem linesFrom_of_holds {is : List Instr} {fuel offset : Nat} {acc : List String}
    (hh : u.Holds offset is) (he : offset + codeSize is = u.size) (hf : is.length ≤ fuel) :
    u.linesFrom fuel offset acc = acc.reverse ++ (locate offset is).map u.lineOf := by
  induction is generalizing fuel offset acc with
  | nil =>
    have hend : ¬offset < u.size := by
      rw [codeSize_nil] at he
      omega
    cases fuel <;> simp [linesFrom, hend, locate]
  | cons i is ih =>
    obtain ⟨hi, hr⟩ := hh
    obtain ⟨fuel, rfl⟩ : ∃ n, fuel = n + 1 := ⟨fuel - 1, by rw [List.length_cons] at hf; omega⟩
    have hlt : offset < u.size := by
      have := i.size_pos
      rw [codeSize_cons] at he
      omega
    have hrest : u.linesFrom fuel (offset + i.size) (u.lineOf ⟨offset, i⟩ :: acc) = _ :=
      ih hr (by rw [codeSize_cons] at he; omega) (by simpa using hf)
    rw [linesFrom, if_pos hlt, lineAt_of_instr? hi]
    exact hrest.trans (by simp [locate])

end CodeUnit

/-- A jump leads to its target, modulo the size of an address: positions below zero wrap round. -/
theorem jumpFrom_emod (base : Nat) (d : Int16) :
    (jumpFrom base d : Int) % UInt64.size = ((base : Int) + d.toInt) % UInt64.size := by
  have hlow := d.le_toInt
  unfold jumpFrom addressOf
  split
  · rw [Int.toNat_of_nonneg (by simp only [UInt64.size]; omega), Int.add_emod_right]
  · rw [Int.toNat_of_nonneg (by omega)]

theorem jumpFrom_lt {base : Nat} (h : (base : Int) ≤ Int64.maxValue.toInt) (d : Int16) :
    jumpFrom base d < UInt64.size := by
  have hmax : Int64.maxValue.toInt = 0x7fffffffffffffff := rfl
  have hlow := d.le_toInt
  have hhigh := d.toInt_lt
  unfold jumpFrom addressOf
  simp only [UInt64.size]
  split <;> omega

namespace Machine

/-- Where the machine stands, it finds the operation code of `l`, and the operand that it reads
makes up the instruction of `l`. -/
structure Reads (p : Lowered) (m : Machine) (l : Located) : Prop where
  opcode : p.unit.opcode? m.ip = some l.instr.opcode
  operand : fetch p { m with ip := m.ip + 1 } l.instr.opcode =
    pure (l.instr, { m with ip := l.next })

theorem reads_of_instr {p : Lowered} {m : Machine} {l : Located}
    (hi : p.unit.instr? l.offset = some l.instr) (hm : m.ip = l.offset) : m.Reads p l := by
  obtain ⟨hbyte, himmediate⟩ := CodeUnit.instr?_eq_some_iff.mp hi
  constructor
  · simp [CodeUnit.opcode?, hm, hbyte]
  · rw [← hm] at himmediate
    rw [Located.next, Instr.size, Opcode.size, ← hm, ← Nat.add_assoc]
    exact fetch_of_carries himmediate

/-- The machine takes the jump of the instruction: a loop does when its elements are used up. -/
def TakesJump (m : Machine) : Instr → Prop
  | .jump _ => True
  | .forIter _ => m.iterators.head? = some []
  | _ => False

theorem not_takesJump_of_isStraight {i : Instr} (h : i.isStraight) (m : Machine) :
    ¬m.TakesJump i := by
  cases i with
  | jump _ | forIter _ => cases h
  | _ => exact not_false

/-- An instruction that does not end the run leads past itself, or to where its jump leads. -/
theorem execute_next {call : Caller} {p : Lowered} {m m' : Machine} {i : Instr} {a b : Activation}
    (h : execute call p m i a = .ok (.next m') b) :
    (¬m.TakesJump i → m'.ip = m.ip) ∧
      (m.TakesJump i → ∃ d, i.distance? = some d ∧ m'.ip = jumpFrom m.ip d) := by
  cases hi : i.isStraight with
  | true =>
    have hgoes := execute_straight call p m hi a _ b h
    exact ⟨fun _ => hgoes.1, fun htakes => absurd htakes (not_takesJump_of_isStraight hi m)⟩
  | false =>
    cases i with
    | jump d =>
      obtain ⟨⟩ := h
      exact ⟨fun hn => absurd trivial hn, fun _ => ⟨d, rfl, rfl⟩⟩
    | getIter =>
      obtain ⟨stack, items, hm⟩ := execute_getIter call p m a _ b h
      obtain ⟨⟩ := hm
      exact ⟨fun _ => rfl, False.elim⟩
    | forIter d =>
      obtain ⟨ip, stack, iterators⟩ := m
      cases iterators with
      | nil => cases h
      | cons items outer =>
        cases items with
        | nil =>
          obtain ⟨⟩ := h
          exact ⟨fun hn => absurd rfl hn, fun _ => ⟨d, rfl, rfl⟩⟩
        | cons v items =>
          obtain ⟨⟩ := h
          exact ⟨fun _ => rfl, nofun⟩
    | _ => cases hi

/-- From the instruction `l`, the machine `m` goes on to `m'`: to the following instruction, unless
it takes a jump. Then it goes to the target modulo the size of an address, and to an address where
the code of the unit has addresses at all. -/
structure GoesOn (m : Machine) (l : Located) (m' : Machine) : Prop where
  onward : ¬m.TakesJump l.instr → m'.ip = l.next
  jump : m.TakesJump l.instr →
    ∃ t, l.target? = some t ∧ (m'.ip : Int) % UInt64.size = t % UInt64.size
  address : (l.next : Int) ≤ Int64.maxValue.toInt → m'.ip < UInt64.size

theorem step_goesOn {settings : ExecSettings} {call : Caller} {p : Lowered} {m m' : Machine}
    {l : Located} {a b : Activation} (hi : p.unit.instr? l.offset = some l.instr)
    (hm : m.ip = l.offset) (h : m.step settings call p a = .ok (.next m') b) : m.GoesOn l m' := by
  rw [step_of_instr (hm ▸ hi), hm] at h
  obtain ⟨honward, hjump⟩ := execute_next h
  refine ⟨honward, fun htakes => ?_, fun haddr => ?_⟩
  · obtain ⟨d, hd, hip⟩ := hjump htakes
    refine ⟨l.next + d.toInt, by rw [Located.target?, hd]; rfl, ?_⟩
    rw [hip]
    exact jumpFrom_emod _ d
  · by_cases htakes : m.TakesJump l.instr
    · obtain ⟨d, -, hip⟩ := hjump htakes
      rw [hip]
      exact jumpFrom_lt haddr d
    · have hmax : Int64.maxValue.toInt = 0x7fffffffffffffff := rfl
      have hip : m'.ip = l.next := honward htakes
      simp only [UInt64.size]
      omega

end Machine

/-- The writer and the readers of code agree. Any instructions, written one after the other, decode
to just these instructions at their offsets. Where bytes decode, writing the decoded instructions
gives the same bytes; the listing has one line for each of them, in order; each is followed by the
next one or the end of the code; and a machine that stands at one reads and executes it and no
other, with the instruction pointer past it, and goes on from there. -/
theorem decoders_agree :
    (∀ (is : List Instr) (u : CodeUnit), ∃ v,
      Build.writeAll is { u with code := #[] } = .ok () v ∧ v.decode = .ok (locate 0 is).toArray) ∧
    ∀ (p : Lowered) (code : Array Located), p.unit.decode = .ok code →
      Build.writeAll (code.toList.map Located.instr) { p.unit with code := #[] } = .ok () p.unit ∧
      p.unit.listing.drop 2 = code.toList.map p.unit.lineOf ∧
      ∀ k l, code[k]? = some l →
        (code[k + 1]?.map Located.offset).getD p.unit.size = l.next ∧
        ∀ m : Machine, m.ip = l.offset → m.Reads p l ∧
          ∀ (settings : ExecSettings) (call : Caller) (a : Activation),
            m.step settings call p a = Machine.execute call p { m with ip := l.next } l.instr
              (m.announced settings p a) ∧
            ∀ m' b, m.step settings call p a = .ok (.next m') b → m.GoesOn l m' := by
  constructor
  · intro is u
    refine ⟨_, Build.writeAll_eq is _, CodeUnit.decode_written is ?_⟩
    simp
  · intro p code hdecode
    obtain ⟨is, hholds, hsize, rfl⟩ := CodeUnit.decode_eq_ok_iff.mp hdecode
    refine ⟨?_, ?_, ?_⟩
    · have hcode := CodeUnit.toList_eq_encodeAll_iff.mpr ⟨hholds, hsize⟩
      rw [List.toList_toArray, map_instr_locate, Build.writeAll_eq, ← hcode]
      simp
    · have hlen := length_le_codeSize is
      have hlines : p.unit.linesFrom p.unit.size 0 [] = _ :=
        CodeUnit.linesFrom_of_holds hholds (by omega) (hsize ▸ hlen)
      rw [CodeUnit.listing, List.drop_succ_cons, List.drop_succ_cons, List.drop_zero, hlines]
      simp
    · intro k l hl
      have hi : p.unit.instr? l.offset = some l.instr :=
        hholds.instr?_of_mem (List.mem_toArray.mp (Array.mem_of_getElem? hl))
      refine ⟨?_, fun m hm => ⟨Machine.reads_of_instr hi hm, fun settings call a =>
        ⟨?_, fun m' b h => Machine.step_goesOn hi hm h⟩⟩⟩
      · rw [List.getElem?_toArray] at hl ⊢
        rw [← hsize, ← Nat.zero_add (codeSize is)]
        exact next_of_locate hl
      · rw [Machine.step_of_instr (hm ▸ hi), hm]
        rfl

/-- A unit whose jump leads below the start of its code, with operands as low as they can be. -/
def Demo.farJump : Lowered where
  unit :=
    { name := "far"
      function := 0
      code := #[0x14, 0x80, 0x40, 0x80, 0x00] }

theorem farJump_decoders_agree :
    Demo.farJump.unit.decode = .ok #[⟨0, .pushSmall (-128)⟩, ⟨2, .jump (-32768)⟩] ∧
    Demo.farJump.unit.listing.drop 2 =
      ["0000 push_int_small -128", "0002 jump -> ffffffffffff8005"] ∧
    Machine.Reads Demo.farJump { ip := 2 } ⟨2, .jump (-32768)⟩ ∧
    ∀ settings call a m b,
      Machine.step settings call Demo.farJump { ip := 2 } a = .ok (.next m) b →
        Machine.GoesOn { ip := 2 } ⟨2, .jump (-32768)⟩ m := by
  have hdecode : Demo.farJump.unit.decode =
      .ok #[⟨0, .pushSmall (-128)⟩, ⟨2, .jump (-32768)⟩] := by rfl
  obtain ⟨-, hlisting, hstep⟩ := decoders_agree.2 _ _ hdecode
  obtain ⟨hreads, hexecutes⟩ := (hstep 1 _ rfl).2 { ip := 2 } rfl
  refine ⟨hdecode, hlisting.trans (by decide +kernel), hreads, fun settings call a m b h => ?_⟩
  exact (hexecutes settings call a).2 m b h

end Tiered
