import Tiered.Proofs.Failures
import Tiered.Proofs.MachineStep
import Tiered.Proofs.Verifier

/-! Verified units are safe: the machine never finds a fault in one, and the depths of its stacks
are those that verification found. -/
namespace Tiered

def Machine.depth (m : Machine) : Depth :=
  ⟨m.stack.length, m.iterators.length⟩

/-- From `a`, the run `x` keeps the number of local slots and ends with a value of which `post`
holds, or it fails. Internal errors it fails from are those that `handed` allows. -/
def Safe {α : Type} (handed : Stop → World → Prop) (a : Activation) (x : Run Activation α)
    (post : α → Prop) : Prop :=
  match x a with
  | .ok v b => b.frame.locals.size = a.frame.locals.size ∧ post v
  | .error reason b => ∀ e, reason = .raised (.internal e) → handed reason b.world

namespace Safe

variable {α β : Type} {handed : Stop → World → Prop} {a : Activation}

theorem pure {v : α} {post : α → Prop} (h : post v) : Safe handed a (Pure.pure v) post :=
  ⟨rfl, h⟩

theorem bind {x : Run Activation α} {f : α → Run Activation β} {p : α → Prop} {q : β → Prop}
    (hx : Safe handed a x p)
    (hf : ∀ v b, b.frame.locals.size = a.frame.locals.size → p v → Safe handed b (f v) q) :
    Safe handed a (x >>= f) q := by
  unfold Safe at hx
  change match EStateM.bind x f a with
    | .ok v b => _
    | .error reason b => _
  unfold EStateM.bind
  generalize x a = r at hx ⊢
  cases r with
  | error reason b => exact hx
  | ok v b =>
    have hrest := hf v b hx.1 hx.2
    unfold Safe at hrest
    dsimp only
    generalize f v b = r at hrest ⊢
    cases r with
    | error reason c => exact hrest
    | ok u c => exact ⟨hrest.1.trans hx.1, hrest.2⟩

theorem mono {x : Run Activation α} {p q : α → Prop} (hx : Safe handed a x p)
    (hpq : ∀ v, p v → q v) : Safe handed a x q := by
  unfold Safe at *
  generalize x a = r at hx ⊢
  cases r with
  | error reason b => exact hx
  | ok v b => exact ⟨hx.1, hpq v hx.2⟩

theorem post_of_eq_ok {x : Run Activation α} {p : α → Prop} (hx : Safe handed a x p) {v : α}
    {b : Activation} (h : x a = .ok v b) : p v := by
  unfold Safe at hx
  rw [h] at hx
  exact hx.2

theorem get_bind {f : Activation → Run Activation β} {q : β → Prop}
    (hf : Safe handed a (f a) q) : Safe handed a (get >>= f) q :=
  hf

theorem ofExcept {r : Except Failure α} (h : ∀ e, r ≠ .error (.internal e)) :
    Safe handed a (Run.ofExcept r) fun _ => True := by
  cases r with
  | ok v => exact ⟨rfl, trivial⟩
  | error e =>
    rintro d ⟨⟩
    exact absurd rfl (h d)

/-- What runs in the world alone keeps the frame. -/
theorem lift {x : Frame → Run World α}
    (h : ∀ e v, x a.frame a.world = .error (.raised (.internal e)) v →
      handed (.raised (.internal e)) v) :
    Safe handed a (Activation.lift x) fun _ => True := by
  obtain ⟨frame, w⟩ := a
  unfold Safe Activation.lift
  cases hx : x frame w with
  | ok v w => simp [hx]
  | error reason v =>
    simp only [hx]
    rintro e rfl
    exact h e v hx

theorem storeLocal {slot : UInt16} (hslot : slot.toNat < a.frame.locals.size) (v : Value) :
    Safe handed a (Activation.storeLocal slot v) fun _ => True := by
  obtain ⟨frame, w⟩ := a
  unfold Safe Activation.storeLocal Frame.writeLocal
  simp only [if_pos (show slot.toNat < frame.locals.size from hslot)]
  exact ⟨by simp, trivial⟩

theorem pop {p : Lowered} {ip n : Nat} {stack : List Value} {iterators : List (List Value)}
    (hs : stack.length = n + 1) :
    Safe handed a (Machine.pop p ⟨ip, stack, iterators⟩) fun r =>
      ∃ rest, r.2 = ⟨ip, rest, iterators⟩ ∧ rest.length = n := by
  cases stack with
  | nil => cases hs
  | cons v rest => exact .pure ⟨rest, rfl, by simpa using hs⟩

end Safe

/-- A transition to one of the ways on. Positions below zero start no instruction. -/
def Transition.Takes (ways : List (Int × Depth)) : Transition → Prop
  | .next m => ∃ way ∈ ways, (0 ≤ way.1 → (m.ip : Int) = way.1) ∧ m.depth = way.2
  | .done _ => True

theorem jumpFrom_of_nonneg {base : Nat} {distance : Int16} (h : 0 ≤ (base : Int) + distance.toInt) :
    (jumpFrom base distance : Int) = base + distance.toInt := by
  rw [jumpFrom, addressOf, if_neg (Int.not_lt.mpr h)]
  exact Int.toNat_of_nonneg h

theorem World.allocClosure_ne_error (fn : FunctionDef) (f : FunctionRef) (w v : World)
    (reason : Stop) : allocClosure fn f w ≠ .error reason v := by
  have hchoose : ∃ code w', chooseCode fn w = .ok code w' := by
    unfold chooseCode
    cases w.specializer with
    | none => exact ⟨_, _, rfl⟩
    | some s => exact ⟨_, _, rfl⟩
  obtain ⟨code, w', hc⟩ := hchoose
  intro h
  change EStateM.bind (chooseCode fn) _ w = _ at h
  unfold EStateM.bind at h
  rw [hc] at h
  cases h

/-- A call with enough values on the stack does no more than make that call. -/
theorem Machine.execute_call (call : Caller) (p : Lowered) (ip : Nat) {stack : List Value}
    (iterators : List (List Value)) {argc : UInt8} (h : argc.toNat + 1 ≤ stack.length) :
    ∃ callee args rest, rest.length = stack.length - (argc.toNat + 1) ∧
      execute call p ⟨ip, stack, iterators⟩ (.call argc) =
        Activation.lift (fun _ => call callee args) >>= fun v =>
          pure (.next ⟨ip, v :: rest, iterators⟩) := by
  obtain ⟨callee, rest, hdrop⟩ : ∃ callee rest, stack.drop argc.toNat = callee :: rest := by
    cases hd : stack.drop argc.toNat with
    | nil =>
      have := List.drop_eq_nil_iff.mp hd
      omega
    | cons callee rest => exact ⟨callee, rest, rfl⟩
  have hlen : rest.length + 1 = stack.length - argc.toNat := by
    rw [← List.length_drop, hdrop, List.length_cons]
  refine ⟨callee, { positional := (stack.take argc.toNat).reverse }, rest, by omega, ?_⟩
  rw [execute, popArgs, if_pos (show argc.toNat ≤ stack.length by omega), pure_bind]
  simp only [hdrop, pop, pure_bind, push]

/-- An instruction that resolves, at depths that suffice for it, takes one of its ways on or
returns. The only internal error it can stop with is that of the call it makes. -/
theorem Machine.execute_safe {p : Lowered} {a : Activation}
    (hslots : p.unit.localCount.toNat ≤ a.frame.locals.size) (call : Caller) {l : Located}
    (hop : p.Resolves l.instr) {stack : List Value} {iterators : List (List Value)}
    (hsuff : Depth.Suffices ⟨stack.length, iterators.length⟩ l.instr) :
    Safe (fun reason w => ∃ n callee args, l.instr = .call n ∧
        call callee args a.world = .error reason w) a
      (execute call p ⟨l.next, stack, iterators⟩ l.instr)
      (Transition.Takes (l.successors ⟨stack.length, iterators.length⟩
        (l.instr.depthAfter ⟨stack.length, iterators.length⟩))) := by
  obtain ⟨offset, i⟩ := l
  obtain ⟨hpops, hiter⟩ := hsuff
  dsimp only at hop hpops hiter ⊢
  -- Either way on from the instruction, for a machine that arrives with the right depths.
  have honward {stack' : List Value} {iterators' : List (List Value)}
      (h : i.opcode.endsFlow = false) (hd : (⟨stack'.length, iterators'.length⟩ : Depth) =
        i.depthAfter ⟨stack.length, iterators.length⟩) :
      (Transition.next ⟨Located.next ⟨offset, i⟩, stack', iterators'⟩).Takes _ :=
    ⟨_, Located.mem_successors_iff.mpr (.inl ⟨h, rfl⟩), fun _ => rfl, hd⟩
  have hjumped {m : Machine} {t : Int} (ht : Located.target? ⟨offset, i⟩ = some t)
      (hip : 0 ≤ t → (m.ip : Int) = t)
      (hd : m.depth = i.depthJumped ⟨stack.length, iterators.length⟩) :
      (Transition.next m).Takes _ :=
    ⟨_, Located.mem_successors_iff.mpr (.inr ⟨t, ht, rfl⟩), hip, hd⟩
  cases i with
  | pop =>
    refine (Safe.pop (n := stack.length - 1) (Nat.sub_add_cancel hpops).symm).bind ?_
    rintro ⟨v, _⟩ b hb ⟨rest, rfl, hrest⟩
    exact .pure (honward rfl (by rw [hrest]; rfl))
  | pushNone => exact .pure (honward rfl rfl)
  | pushSmall n => exact .pure (honward rfl rfl)
  | pushConstant index =>
    have hv : p.unit.constantAt? index = some _ := Array.getElem?_eq_getElem hop
    rw [execute, hv]
    exact .pure (honward rfl rfl)
  | loadLocal slot =>
    have hslot : slot.toNat < a.frame.locals.size := Nat.lt_of_lt_of_le hop hslots
    refine .get_bind ((Safe.ofExcept (Frame.loadLocal_ne_internal hslot _)).bind fun v _ _ _ => ?_)
    exact .pure (honward rfl rfl)
  | storeLocal slot =>
    have hslot : slot.toNat < a.frame.locals.size := Nat.lt_of_lt_of_le hop hslots
    refine (Safe.pop (n := stack.length - 1) (Nat.sub_add_cancel hpops).symm).bind ?_
    rintro ⟨v, _⟩ b hb ⟨rest, rfl, hrest⟩
    refine (Safe.storeLocal (hb ▸ hslot) v).bind fun _ _ _ _ => ?_
    exact .pure (honward rfl (by rw [hrest]; rfl))
  | loadGlobal slot =>
    refine .get_bind ((Safe.ofExcept (Frame.loadGlobal_ne_internal _ _ _ _)).bind fun v _ _ _ => ?_)
    exact .pure (honward rfl rfl)
  | storeGlobal slot =>
    refine (Safe.pop (n := stack.length - 1) (Nat.sub_add_cancel hpops).symm).bind ?_
    rintro ⟨v, _⟩ b hb ⟨rest, rfl, hrest⟩
    refine (Safe.lift fun e w h => by cases h).bind fun _ _ _ _ => ?_
    exact .pure (honward rfl (by rw [hrest]; rfl))
  | loadUniversal index =>
    have hname : p.unit.nameAt? index = some _ := Array.getElem?_eq_getElem hop
    rw [execute, hname]
    refine (Safe.ofExcept (loadUniversal_ne_internal _)).bind fun v _ _ _ => ?_
    exact .pure (honward rfl rfl)
  | jump distance => exact .pure (hjumped rfl jumpFrom_of_nonneg rfl)
  | call argc =>
    obtain ⟨callee, args, rest, hrest, hcall⟩ := execute_call call p
      (Located.next ⟨offset, .call argc⟩) iterators hpops
    rw [hcall]
    refine (Safe.lift fun e w h => ⟨argc, callee, args, rfl, h⟩).bind fun v _ _ _ => ?_
    exact .pure (honward rfl (by rw [List.length_cons, hrest]; rfl))
  | ret =>
    refine (Safe.pop (n := stack.length - 1) (Nat.sub_add_cancel hpops).symm).bind fun _ _ _ _ => ?_
    exact .pure trivial
  | getIter =>
    refine (Safe.pop (n := stack.length - 1) (Nat.sub_add_cancel hpops).symm).bind ?_
    rintro ⟨v, _⟩ b hb ⟨rest, rfl, hrest⟩
    refine (Safe.ofExcept v.items_ne_internal).bind fun items _ _ _ => ?_
    exact .pure (honward rfl (by rw [hrest]; rfl))
  | forIter distance =>
    match iterators, hiter rfl with
    | (v :: items) :: outer, _ => exact .pure (honward rfl rfl)
    | [] :: outer, _ => exact .pure (hjumped rfl jumpFrom_of_nonneg rfl)
  | makeFunction index =>
    obtain ⟨fn, hfn⟩ := Option.isSome_iff_exists.mp hop
    rw [execute, hfn]
    refine (Safe.lift fun e w h => by cases h).bind fun _ _ _ _ => ?_
    refine (Safe.lift fun e w h =>
      absurd h (World.allocClosure_ne_error fn _ _ w _)).bind fun f _ _ _ => ?_
    exact .pure (honward rfl rfl)
  | add =>
    have htwo : 2 ≤ stack.length := hpops
    refine (Safe.pop (n := stack.length - 2 + 1) (by omega)).bind ?_
    rintro ⟨v, _⟩ b hb ⟨rest, rfl, hrest⟩
    refine (Safe.pop hrest).bind ?_
    rintro ⟨u, _⟩ c hc ⟨rest', rfl, hrest'⟩
    refine (Safe.ofExcept (u.add_ne_internal v)).bind fun sum _ _ _ => ?_
    exact .pure (honward rfl (by rw [List.length_cons, hrest']; rfl))

/-- The machine is at an instruction, with the depths that belong there. -/
def Machine.AtDepth (is : List Instr) (depthAt : Nat → Option Depth) (m : Machine) : Prop :=
  ∃ j, startAt (startsOf is) m.ip = some j ∧ depthAt j = some m.depth

/-- The machine is at a call, and that call fails for this reason and leaves this world. -/
def Machine.CallFails (settings : ExecSettings) (call : Caller) (p : Lowered) (m : Machine)
    (a : Activation) (reason : Stop) (w : World) : Prop :=
  ∃ n callee args, p.unit.instr? m.ip = some (.call n) ∧
    call callee args (m.announced settings p a).world = .error reason w

/-- One step from an instruction leads to another, again with the depths that belong there. -/
theorem Machine.step_safe {p : Lowered} {is : List Instr} {depthAt : Nat → Option Depth}
    (ht : p.Typed is depthAt) (hr : ∀ i ∈ is, p.Resolves i) {m : Machine}
    (hm : m.AtDepth is depthAt) (settings : ExecSettings) (call : Caller) {a : Activation}
    (hslots : p.unit.localCount.toNat ≤ a.frame.locals.size) :
    Safe (m.CallFails settings call p a) a (m.step settings call p) fun t =>
      ∀ m', t = .next m' → m'.AtDepth is depthAt := by
  obtain ⟨j, hj, hd⟩ := hm
  obtain ⟨l, after, hl, hafter, hways⟩ := ht.consistent.flow hd
  obtain ⟨hsuff, rfl⟩ := Located.depthAfter_eq_ok_iff.mp hafter
  have hget : is[j]?.map (fun i => ⟨0 + codeSize (is.take j), i⟩) = some l := by
    rw [← getElem?_locate, ← List.getElem?_toArray]
    exact hl
  obtain ⟨i, hi, rfl⟩ := Option.map_eq_some_iff.mp hget
  have hlocated : (⟨0 + codeSize (is.take j), i⟩ : Located) = ⟨m.ip, i⟩ := by
    have := (startAt_boundaries.mp hj).2
    congr 1
    omega
  rw [hlocated] at hl hsuff hways
  have hinstr : p.unit.instr? m.ip = some i :=
    ht.holds.instr?_of_mem (List.mem_of_getElem? ((List.getElem?_toArray).symm.trans hl))
  have hstep : Safe _ (m.announced settings p a) _ _ :=
    execute_safe (by rwa [frame_announced]) call (hr i (List.mem_of_getElem? hi)) hsuff
  unfold Safe at hstep ⊢
  rw [Located.next, frame_announced] at hstep
  rw [step_of_instr hinstr]
  dsimp only at hstep
  generalize execute call p ⟨m.ip + i.size, m.stack, m.iterators⟩ i _ = r at hstep ⊢
  cases r with
  | error reason b =>
    intro e he
    obtain ⟨n, callee, args, rfl, hcall⟩ := hstep e he
    exact ⟨n, callee, args, hinstr, hcall⟩
  | ok t b =>
    refine ⟨hstep.1, ?_⟩
    rintro m' rfl
    obtain ⟨way, hway, hpos, hdepth⟩ := hstep.2
    obtain ⟨k, hk, hdk⟩ := hways way hway
    have hnonneg : 0 ≤ way.1 := by
      have := (startAt_boundaries.mp hk).2
      omega
    exact ⟨k, by rw [hpos hnonneg]; exact hk, by rw [hdepth]; exact hdk⟩

/-- The states that steps of a unit lead to. Each step may start from any call with enough local
slots, in any world, and make its calls in any way: what a step leaves there is not relied on. -/
inductive Lowered.Visits (p : Lowered) : Machine → Prop
  | start : p.Visits {}
  | step {m m' : Machine} {settings : ExecSettings} {call : Caller} {a b : Activation}
      (h : p.Visits m) (ha : p.unit.localCount.toNat ≤ a.frame.locals.size)
      (hs : m.step settings call p a = .ok (.next m') b) : p.Visits m'

theorem Lowered.Visits.atDepth {p : Lowered} {is : List Instr} {depthAt : Nat → Option Depth}
    (ht : p.Typed is depthAt) (hr : ∀ i ∈ is, p.Resolves i) {m : Machine} (h : p.Visits m) :
    m.AtDepth is depthAt := by
  induction h with
  | start =>
    obtain ⟨l, -, hl, -⟩ := ht.consistent.flow ht.consistent.entry
    have hpos : 0 < is.length := by simpa using (Array.getElem?_eq_some_iff.mp hl).1
    exact ⟨0, startAt_boundaries.mpr ⟨hpos, rfl⟩, ht.consistent.entry⟩
  | @step m m' settings call a b h ha hs ih =>
    have hstep := Machine.step_safe ht hr ih settings call ha
    exact hstep.post_of_eq_ok hs m' rfl

/-- A unit that passes verification is safe. Wherever its steps lead, the machine is at the start of
an instruction, at depths which that place determines and which are within the summary, and its next
step keeps the number of local slots and stops with an internal error only if it makes a call that
does: the unit has no fault for it to find, and no local slot is missing. -/
theorem verified_machine_safe {p : Lowered} {name : String} {summary : Summary}
    (hv : p.verify name = .ok summary) :
    ∃ code, p.unit.decode = .ok code ∧ ∃ depthAt : Nat → Depth, ∀ m, p.Visits m →
      (∃ l ∈ code, l.offset = m.ip) ∧ m.depth = depthAt m.ip ∧
      m.stack.length ≤ summary.maxStack ∧ m.iterators.length ≤ summary.maxLoops ∧
      ∀ settings call (a : Activation), p.unit.localCount.toNat ≤ a.frame.locals.size →
        Safe (m.CallFails settings call p a) a (m.step settings call p) fun _ => True := by
  obtain ⟨is, depthAt, ht, hr, hbounds⟩ :=
    Lowered.Typed.of_check (Lowered.verify_eq_ok_iff.mp hv)
  refine ⟨_, CodeUnit.decode_eq_ok_iff.mpr ⟨is, ht.holds, ht.size, rfl⟩,
    fun ip => ((startAt (startsOf is) ip).bind depthAt).getD ⟨0, 0⟩, fun m hm => ?_⟩
  have hat := hm.atDepth ht hr
  obtain ⟨j, hj, hd⟩ := hat
  obtain ⟨hlt, hip⟩ := startAt_boundaries.mp hj
  have hget : (locate 0 is)[j]? = some ⟨0 + codeSize (is.take j), is[j]⟩ := by
    rw [getElem?_locate, List.getElem?_eq_getElem hlt, Option.map_some]
  have hbound := hbounds hd
  refine ⟨⟨_, List.mem_toArray.mpr (List.mem_of_getElem? hget), by dsimp only; omega⟩, ?_,
    hbound.1, hbound.2, fun settings call a hslots => ?_⟩
  · dsimp only
    rw [hj, Option.bind_some, hd]
    rfl
  · have hstep := Machine.step_safe ht hr ⟨j, hj, hd⟩ settings call hslots
    exact hstep.mono fun _ _ => trivial

def Demo.drain : Lowered where
  unit :=
    { name := "drain"
      function := 0
      localCount := 1
      code := (encodeAll [.loadLocal 0, .getIter, .forIter 4, .pop, .jump (-7), .pushNone,
        .ret]).toArray }

theorem drain_machine_safe : Demo.drain.verify "drain" = .ok ⟨7, 1, 1⟩ ∧
    ∃ code, Demo.drain.unit.decode = .ok code ∧ ∃ depthAt : Nat → Depth,
      ∀ m, Demo.drain.Visits m →
        (∃ l ∈ code, l.offset = m.ip) ∧ m.depth = depthAt m.ip ∧
        m.stack.length ≤ 1 ∧ m.iterators.length ≤ 1 ∧
        ∀ settings call (a : Activation), 1 ≤ a.frame.locals.size →
          Safe (m.CallFails settings call Demo.drain a) a (m.step settings call Demo.drain)
            fun _ => True := by
  have hv : Demo.drain.verify "drain" = .ok ⟨7, 1, 1⟩ := by rfl
  exact ⟨hv, verified_machine_safe hv⟩

end Tiered
