import Tiered.Proofs.Emission
import Tiered.Proofs.MachineStep

/-! The machine comes to an end on every lowered unit: its code jumps back only at the end of a loop,
and a loop visits the elements of a list once each. -/
namespace Tiered

section Gives

variable {σ α β : Type}

/-- Whenever `x` ends with a value, `post` holds of it. -/
def Gives (x : Run σ α) (post : α → Prop) : Prop :=
  ∀ s v t, x s = .ok v t → post v

namespace Gives

variable {x : Run σ α} {f : α → Run σ β} {p : α → Prop} {q : β → Prop}

theorem pure {a : α} (h : p a) : Gives (Pure.pure a : Run σ α) p := by
  rintro s _ _ ⟨⟩
  exact h

theorem raise (e : Failure) : Gives (Run.raise e : Run σ α) p := by
  rintro s _ _ ⟨⟩

theorem bind (hx : Gives x p) (hf : ∀ a, p a → Gives (f a) q) : Gives (x >>= f) q := by
  intro s b t h
  obtain ⟨a, r, hxs, hfr⟩ := bind_eq_ok.mp h
  exact hf a (hx s a r hxs) r b t hfr

theorem anything : Gives x fun _ => True :=
  fun _ _ _ _ => trivial

end Gives

end Gives

/-- Neither a jump nor a change of the open loops. -/
def Instr.isStraight : Instr → Bool
  | .jump _ | .getIter | .forIter _ => false
  | _ => true

/-- The machine goes on from `ip`, with the open loops `iterators`. -/
def Transition.GoesTo (ip : Nat) (iterators : List (List Value)) : Transition → Prop
  | .next m => m.ip = ip ∧ m.iterators = iterators
  | .done _ => True

namespace Machine

theorem pop_gives (p : Lowered) (m : Machine) :
    Gives (m.pop p) fun r => r.2.ip = m.ip ∧ r.2.iterators = m.iterators := by
  unfold pop
  split
  · exact .pure ⟨rfl, rfl⟩
  · exact .raise _

theorem popArgs_gives (p : Lowered) (m : Machine) (n : Nat) :
    Gives (m.popArgs p n) fun r => r.2.ip = m.ip ∧ r.2.iterators = m.iterators := by
  unfold popArgs
  split
  · exact .pure ⟨rfl, rfl⟩
  · exact .raise _

/-- A straight instruction leads to the one behind it, if it leads anywhere. -/
theorem execute_straight (call : Caller) (p : Lowered) (m : Machine) {i : Instr}
    (hi : i.isStraight) :
    Gives (execute call p m i) (Transition.GoesTo m.ip m.iterators) := by
  have hpop {m : Machine} := pop_gives p m
  cases i with
  | pop => exact hpop.bind fun r hr => .pure hr
  | pushNone => exact .pure ⟨rfl, rfl⟩
  | pushSmall n => exact .pure ⟨rfl, rfl⟩
  | pushConstant i =>
    rw [execute]
    cases p.unit.constantAt? i with
    | none => exact .raise _
    | some v => exact .pure ⟨rfl, rfl⟩
  | loadLocal slot =>
    exact Gives.anything.bind fun _ _ => Gives.anything.bind fun v _ => .pure ⟨rfl, rfl⟩
  | storeLocal slot =>
    exact hpop.bind fun r hr => Gives.anything.bind fun _ _ => .pure hr
  | loadGlobal slot =>
    exact Gives.anything.bind fun _ _ => Gives.anything.bind fun v _ => .pure ⟨rfl, rfl⟩
  | storeGlobal slot =>
    exact hpop.bind fun r hr => Gives.anything.bind fun _ _ => .pure hr
  | loadUniversal i =>
    rw [execute]
    cases p.unit.nameAt? i with
    | none => exact .raise _
    | some name => exact Gives.anything.bind fun v _ => .pure ⟨rfl, rfl⟩
  | call n =>
    exact (popArgs_gives p m _).bind fun r hr => hpop.bind fun q hq =>
      Gives.anything.bind fun v _ => .pure ⟨hq.1.trans hr.1, hq.2.trans hr.2⟩
  | ret => exact Gives.anything.bind fun r _ => .pure trivial
  | makeFunction i =>
    rw [execute]
    cases (p.unit.functionAt? i).bind p.functions.get? with
    | none => exact .raise _
    | some fn =>
      exact Gives.anything.bind fun _ _ => Gives.anything.bind fun f _ => .pure ⟨rfl, rfl⟩
  | add =>
    exact hpop.bind fun r hr => hpop.bind fun q hq =>
      Gives.anything.bind fun v _ => .pure ⟨hq.1.trans hr.1, hq.2.trans hr.2⟩
  | jump _ | getIter | forIter _ => cases hi

/-- Opening a loop leads on, with one more iterator. -/
theorem execute_getIter (call : Caller) (p : Lowered) (m : Machine) :
    Gives (execute call p m .getIter) fun t =>
      ∃ stack items, t = .next ⟨m.ip, stack, items :: m.iterators⟩ := by
  rw [execute]
  refine (pop_gives p m).bind ?_
  rintro ⟨v, ip, stack, iterators⟩ ⟨rfl, rfl⟩
  exact Gives.anything.bind fun items _ => .pure ⟨stack, items, rfl⟩

variable (settings : ExecSettings) (call : Caller) (p : Lowered)

/-- The machine comes to an end: no run of steps from here goes on for ever. -/
inductive Halts : Machine → Activation → Prop
  | intro {m : Machine} {a : Activation}
      (h : ∀ m' b, m.step settings call p a = .ok (.next m') b → Halts m' b) : Halts m a

variable {settings call p}

theorem Halts.finish {m : Machine} {a : Activation} (h : Halts settings call p m a) :
    ∃ r, m.finish settings call p a = some r := by
  induction h with
  | @intro m a h ih =>
    rw [finish_eq_resume]
    cases hstep : m.step settings call p a with
    | error e b => exact ⟨_, rfl⟩
    | ok t b =>
      cases t with
      | done v => exact ⟨_, rfl⟩
      | next m' => exact ih m' b hstep

theorem Halts.run {m : Machine} {a : Activation} (h : Halts settings call p m a) (taken : Nat) :
    ∃ limit, (run settings call p limit taken m a).outcome ≠ .limitReached := by
  induction h generalizing taken with
  | @intro m a h ih =>
    cases hstep : m.step settings call p a with
    | error e b => exact ⟨1, by simp [Machine.run, hstep]⟩
    | ok t b =>
      cases t with
      | done v => exact ⟨1, by simp [Machine.run, hstep]⟩
      | next m' =>
        obtain ⟨limit, hlimit⟩ := ih m' b hstep (taken + 1)
        exact ⟨limit + 1, by simpa [Machine.run, hstep] using hlimit⟩

theorem halts_of_instr {m : Machine} {i : Instr} (hi : p.unit.instr? m.ip = some i)
    (h : Gives (execute call p { m with ip := m.ip + i.size } i) fun t =>
      ∀ m', t = .next m' → ∀ b, Halts settings call p m' b) (a : Activation) :
    Halts settings call p m a := by
  constructor
  intro m' b hstep
  rw [step_of_instr hi] at hstep
  exact h _ _ _ hstep m' rfl b

theorem halts_of_next {m m' : Machine} {i : Instr} (hi : p.unit.instr? m.ip = some i)
    (hexec : execute call p { m with ip := m.ip + i.size } i = pure (.next m'))
    (h : ∀ b, Halts settings call p m' b) (a : Activation) : Halts settings call p m a := by
  apply halts_of_instr hi
  rw [hexec]
  apply Gives.pure
  intro _ heq
  cases heq
  exact h

variable (settings call p)

/-- The machine comes to an end from the start of the code `is` if it does from behind it. -/
def Passes (is : List Instr) : Prop :=
  ∀ ip iterators, p.unit.Holds ip is →
    (∀ stack a, Halts settings call p ⟨ip + codeSize is, stack, iterators⟩ a) →
    ∀ stack a, Halts settings call p ⟨ip, stack, iterators⟩ a

variable {settings call p}

theorem Passes.append {is js : List Instr} (hi : Passes settings call p is)
    (hj : Passes settings call p js) : Passes settings call p (is ++ js) := by
  intro ip iterators hh h
  rw [CodeUnit.holds_append] at hh
  obtain ⟨hhi, hhj⟩ := hh
  apply hi ip iterators hhi
  apply hj _ iterators hhj
  simpa [Nat.add_assoc] using h

theorem passes_of_straight {is : List Instr} (hs : ∀ i ∈ is, i.isStraight) :
    Passes settings call p is := by
  induction is with
  | nil => exact fun _ _ _ h => h
  | cons i is ih =>
    intro ip iterators hh h
    obtain ⟨hi, hhs⟩ := hh
    have hrest := ih (fun j hj => hs j (List.mem_cons_of_mem _ hj)) (ip + i.size) iterators hhs
      (by simpa [Nat.add_assoc] using h)
    intro stack
    apply halts_of_instr hi
    intro a t b hexec m' ht
    have hgoes := execute_straight call p _ (hs i List.mem_cons_self) a t b hexec
    subst ht
    obtain ⟨ip', stack', iterators'⟩ := m'
    have hip : ip' = ip + i.size := hgoes.1
    have hiter : iterators' = iterators := hgoes.2
    rw [hip, hiter]
    exact hrest stack'

/-- A loop at its head ends, whatever elements are still to come: each of them is visited once. -/
theorem halts_of_loop {start : Nat} {store : Instr} {js : List Instr} {exit back : Int16}
    (hstore : store.isStraight) (hbody : Passes settings call p js)
    (hh : p.unit.Holds start (.forIter exit :: store :: (js ++ [.jump back])))
    (hexit : exit.toInt = store.size + codeSize js + 3)
    (hback : back.toInt = -(3 + store.size + codeSize js + 3 : Int))
    {iterators : List (List Value)}
    (h : ∀ stack a, Halts settings call p
      ⟨start + 3 + store.size + codeSize js + 3, stack, iterators⟩ a)
    (items : List Value) (stack : List Value) (a : Activation) :
    Halts settings call p ⟨start, stack, items :: iterators⟩ a := by
  obtain ⟨hhead, hh⟩ := hh
  have hiter : (Instr.forIter exit).size = 3 := rfl
  rw [hiter] at hh
  induction items generalizing stack a with
  | nil =>
    have hleave : execute call p ⟨start + 3, stack, [] :: iterators⟩ (.forIter exit) =
        pure (.next ⟨jumpFrom (start + 3) exit, stack, iterators⟩) := rfl
    have hto : jumpFrom (start + 3) exit = start + 3 + store.size + codeSize js + 3 :=
      jumpFrom_eq (by rw [hexit]; push_cast; omega)
    rw [hto] at hleave
    exact halts_of_next hhead hleave (h stack) a
  | cons v rest ih =>
    rw [← List.cons_append, CodeUnit.holds_append] at hh
    obtain ⟨hcode, hjump, -⟩ := hh
    have hone : ∀ i ∈ [store], i.isStraight := List.forall_mem_singleton.mpr hstore
    have hround : Passes settings call p (store :: js) := (passes_of_straight hone).append hbody
    have hvisit : execute call p ⟨start + 3, stack, (v :: rest) :: iterators⟩ (.forIter exit) =
        pure (.next ⟨start + 3, v :: stack, rest :: iterators⟩) := rfl
    have hto : jumpFrom (start + 3 + codeSize (store :: js) + 3) back = start :=
      jumpFrom_eq (by rw [hback, codeSize_cons]; push_cast; omega)
    apply halts_of_next hhead hvisit
    apply hround (start + 3) (rest :: iterators) hcode
    intro stack'
    have hagain : execute call p
        ⟨start + 3 + codeSize (store :: js) + 3, stack', rest :: iterators⟩ (.jump back) =
        pure (.next ⟨jumpFrom (start + 3 + codeSize (store :: js) + 3) back, stack',
          rest :: iterators⟩) := rfl
    rw [hto] at hagain
    exact halts_of_next hjump hagain (ih stack')

end Machine

mutual

theorem ExprCode.straight {p : Lowered} : ∀ {e : Expr} {is : List Instr}, ExprCode p e is →
    ∀ i ∈ is, i.isStraight
  | _, _, .loadLocal | _, _, .loadGlobal | _, _, .loadUniversal _ | _, _, .small _ | _, _, .int _
  | _, _, .str _ => List.forall_mem_singleton.mpr rfl
  | _, _, .add hl hr => by
    simp only [List.mem_append, List.mem_singleton]
    rintro i (h | h | rfl)
    · exact hl.straight i h
    · exact hr.straight i h
    · rfl
  | _, _, .call hf ha _ => by
    simp only [List.mem_append, List.mem_singleton]
    rintro i (h | h | rfl)
    · exact hf.straight i h
    · exact ha.straight i h
    · rfl

theorem ArgsCode.straight {p : Lowered} : ∀ {args : List Arg} {is : List Instr}, ArgsCode p args is →
    ∀ i ∈ is, i.isStraight
  | _, _, .nil => by simp
  | _, _, .cons he hr => by
    simp only [List.mem_append]
    rintro i (h | h)
    · exact he.straight i h
    · exact hr.straight i h

end

theorem Ident.straight_of_storeInstr? {x : Ident} {i : Instr} (h : x.storeInstr? = some i) :
    i.isStraight := by
  cases x <;> cases h <;> rfl

section Shape

variable {settings : ExecSettings} {call : Caller} {p : Lowered}

open Machine

theorem ExprCode.passes_snoc {e : Expr} {is : List Instr} (h : ExprCode p e is) {i : Instr}
    (hi : i.isStraight) : Passes settings call p (is ++ [i]) := by
  apply (passes_of_straight h.straight).append
  exact passes_of_straight (List.forall_mem_singleton.mpr hi)

mutual

theorem StmtCode.passes : ∀ {s : Stmt} {is : List Instr}, StmtCode p s is →
    Passes settings call p is
  | _, _, .ret he => he.passes_snoc rfl
  | _, _, .retNone =>
    passes_of_straight (List.forall_mem_cons.mpr ⟨rfl, List.forall_mem_singleton.mpr rfl⟩)
  | _, _, .eval he => he.passes_snoc rfl
  | _, _, .define _ _ hs => by
    have hstore := Ident.straight_of_storeInstr? hs
    exact passes_of_straight
      (List.forall_mem_cons.mpr ⟨rfl, List.forall_mem_singleton.mpr hstore⟩)
  | _, _, .forEach hc hs hb hexit hback => by
    apply (passes_of_straight hc.straight).append
    intro ip iterators hh h
    obtain ⟨hget, hloop⟩ := hh
    simp only [codeSize_append, codeSize_cons, codeSize_nil, ← Nat.add_assoc] at h
    intro stack
    apply halts_of_instr hget
    intro a t b hexec m' ht
    obtain ⟨stack', items, rfl⟩ := execute_getIter call p _ a t b hexec
    cases ht
    exact halts_of_loop (Ident.straight_of_storeInstr? hs) hb.passes hloop hexit hback h items stack'

theorem BlockCode.passes : ∀ {body : List Stmt} {is : List Instr}, BlockCode p body is →
    Passes settings call p is
  | _, _, .nil => fun _ _ _ h => h
  | _, _, .cons hs hr => hs.passes.append hr.passes

end

/-- From whatever frame and in whatever world, the machine comes to an end on a lowered unit. -/
theorem FunctionDef.lower_halts {fn : FunctionDef} (hp : fn.lower = .ok p) (a : Activation) :
    Halts settings call p {} a := by
  obtain ⟨is, hr⟩ := FunctionDef.lower_renders hp
  have hh := hr.holds
  rw [CodeUnit.holds_append] at hh
  obtain ⟨hblock, hpush, hret, -⟩ := hh
  apply hr.block.passes 0 [] hblock
  intro stack
  apply halts_of_next hpush rfl
  exact halts_of_instr hret (.pure nofun)

end Shape

end Tiered
