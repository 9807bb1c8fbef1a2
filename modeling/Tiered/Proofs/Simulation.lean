import Tiered.Proofs.Alignment
import Tiered.Proofs.Emission
import Tiered.Proofs.MachineStep

/-! The machine follows the interpreter. Each lemma here is about a piece of code at some place of
a unit: if the machine ends like the interpreter whenever both go on after that piece, it ends like
the interpreter from its start. -/
namespace Tiered

namespace Activation

variable {α β : Type}

theorem lift_pure (v : α) : lift (fun _ => pure v) = pure v := rfl

theorem lift_ofExcept (r : Except Failure α) : lift (fun _ => Run.ofExcept r) = Run.ofExcept r := by
  cases r <;> rfl

theorem lift_bind (x : Frame → Run World α) (f : Frame → α → Run World β) :
    lift (fun frame => x frame >>= f frame) = lift x >>= fun v => lift fun frame => f frame v := by
  funext ⟨frame, w⟩
  simp only [lift, bind, EStateM.bind]
  cases x frame w <;> rfl

end Activation

theorem Frame.loadLocal_cases (frame : Frame) (slot : UInt16) :
    (∃ v, ∀ name, frame.loadLocal slot name = .ok v) ∨
      (∃ e, ∀ name, frame.loadLocal slot name = .error e) ∨
        ∀ name, frame.loadLocal slot name = .error (.unboundLocal name) := by
  unfold loadLocal
  cases frame.readLocal slot with
  | error e => exact .inr (.inl ⟨e, fun _ => rfl⟩)
  | ok v =>
    cases v with
    | none => exact .inr (.inr fun _ => rfl)
    | some v => exact .inl ⟨v, fun _ => rfl⟩

theorem Frame.loadGlobal_cases (frame : Frame) (w : World) (slot : UInt16) :
    (∃ v, ∀ name, frame.loadGlobal w slot name = .ok v) ∨
      ∀ name, frame.loadGlobal w slot name = .error (.unboundGlobal name) := by
  unfold loadGlobal
  cases w.readGlobal frame.function slot with
  | none => exact .inr fun _ => rfl
  | some v => exact .inl ⟨v, fun _ => rfl⟩

/-- Both sides of a simulation. The interpreter makes its calls through `call`, the machine through
`call'`; the reasons they stop for are related by `reasons`. -/
structure Simulation (A : Alignment) where
  call : Caller
  call' : Caller
  callers : A.Callers call call'
  settings : ExecSettings
  settings' : ExecSettings
  p : Lowered
  reasons : Stop → Stop → Prop
  reasons_refl : ∀ e, reasons e e

namespace Simulation

variable {A : Alignment} (S : Simulation A)

def Ends (r : EStateM.Result Stop Activation Value) (m : Machine) (b : Activation) : Prop :=
  ∃ q, m.finish S.settings' S.call' S.p b = some q ∧ SameEnd S.reasons A.Acts r q

/-- An unbound slot is reported under names that count as the same. -/
def Named : Ident → Prop
  | .localVar name slot => S.reasons (.raised (.unboundLocal name))
      (.raised (.unboundLocal (S.p.unit.nameOfLocal slot)))
  | .globalVar name slot => S.reasons (.raised (.unboundGlobal name))
      (.raised (.unboundGlobal (S.p.unit.nameOfGlobal slot)))
  | .universal _ => True

def Makes (fn : FunctionDef) : Prop :=
  A.admits fn ∧ ∀ g, S.p.functions.get? fn.id = some g → g = fn

/-- One instruction of the machine, whether or not the machine reports it. -/
theorem ends_of_instr {r : EStateM.Result Stop Activation Value} {m : Machine} {a b : Activation}
    {i : Instr} (hi : S.p.unit.instr? m.ip = some i) (hab : A.Acts a b)
    (h : ∀ b', A.Acts a b' → ∃ q, Machine.resume S.settings' S.call' S.p
      (Machine.execute S.call' S.p { m with ip := m.ip + i.size } i b') = some q ∧
        SameEnd S.reasons A.Acts r q) : S.Ends r m b := by
  unfold Ends
  rw [Machine.finish_eq_resume, Machine.step_of_instr hi]
  apply h
  unfold Machine.announced
  split
  · exact ⟨hab.1, A.report_right rfl hab.2⟩
  · exact hab

/-- The interpreter may report a statement before it runs it. -/
theorem ends_of_announce {α : Type} {on : Bool} {e : Event} {x : Unit → Run Activation α}
    {k : α → Run Activation Value} {m : Machine} {a b : Activation} (he : e.isProgress)
    (hab : A.Acts a b) (h : ∀ a', A.Acts a' b → S.Ends ((x () >>= k) a') m b) :
    S.Ends (((if on then Activation.emit e >>= x else x ()) >>= k) a) m b := by
  cases on with
  | false => exact h a hab
  | true => exact h ⟨a.frame, a.world.emitEvent e⟩ ⟨hab.1, A.report_left he hab.2⟩

/-- The code `is` leaves on the stack what `post` says of the result of `x`. -/
def Pushes {α : Type} (x : Run Activation α) (post : α → List Value → Prop) (is : List Instr) :
    Prop :=
  ∀ (ip : Nat) (stack : List Value) (iterators : List (List Value)) (k : α → Run Activation Value)
    (a b : Activation), S.p.unit.Holds ip is → A.Acts a b →
    (∀ v vs a' b', post v vs → A.Acts a' b' →
      S.Ends (k v a') ⟨ip + codeSize is, vs ++ stack, iterators⟩ b') →
    S.Ends ((x >>= k) a) ⟨ip, stack, iterators⟩ b

/-- Both sides do the same and go on. -/
theorem ends_of_alike {α : Type} {x x' : Run Activation α} {t : α → Machine}
    {k : α → Run Activation Value} {a b : Activation} (hx : Alike A.Acts x x') (hab : A.Acts a b)
    (h : ∀ v a' b', A.Acts a' b' → S.Ends (k v a') (t v) b') :
    ∃ q, Machine.resume S.settings' S.call' S.p
      ((x' >>= fun v => pure (.next (t v)) : Run Activation Transition) b) = some q ∧
      SameEnd S.reasons A.Acts ((x >>= k) a) q := by
  have hend := hx a b hab
  change ∃ q, Machine.resume S.settings' S.call' S.p (EStateM.bind x' _ b) = some q ∧
    SameEnd S.reasons A.Acts (EStateM.bind x k a) q
  unfold EStateM.bind
  generalize x a = r, x' b = q at hend ⊢
  cases hend with
  | ok hab => exact h _ _ _ hab
  | error he hab =>
    subst he
    exact ⟨_, rfl, .error (S.reasons_refl _) hab⟩

/-- A load succeeds on both sides, or fails on both. -/
theorem ends_of_load (r r' : Except Failure Value) (m : Machine) {k : Value → Run Activation Value}
    {a b : Activation}
    (hr : (∃ v, r = .ok v ∧ r' = .ok v) ∨
      ∃ e e', r = .error e ∧ r' = .error e' ∧ S.reasons (.raised e) (.raised e'))
    (hab : A.Acts a b)
    (h : ∀ v, S.Ends (k v a) (m.push v) b) :
    ∃ q, Machine.resume S.settings' S.call' S.p
      ((Run.ofExcept r' >>= fun v => pure (.next (m.push v)) : Run Activation Transition) b) =
        some q ∧ SameEnd S.reasons A.Acts ((Run.ofExcept r >>= k) a) q := by
  rcases hr with ⟨v, rfl, rfl⟩ | ⟨e, e', rfl, rfl, he⟩
  · exact h v
  · exact ⟨_, rfl, .error he hab⟩

theorem ident {x : Ident} {is : List Instr} (hx : ExprCode S.p (.ident x) is) (hn : S.Named x) :
    S.Pushes (Activation.lift fun frame => Expr.eval S.call frame (.ident x))
      (fun v vs => vs = [v]) is := by
  intro ip stack iterators k a b hh hab h
  have hleft : (Activation.lift (fun frame => Expr.eval S.call frame (.ident x)) >>= k) a =
      (Run.ofExcept (a.frame.load a.world x) >>= k) a := by
    have hload : Activation.lift (fun frame => Expr.eval S.call frame (.ident x)) a =
        Run.ofExcept (a.frame.load a.world x) a := by
      obtain ⟨frame, w⟩ := a
      simp only [Expr.eval, Activation.lift]
      have hget : (do Run.ofExcept (frame.load (← get) x) : Run World Value) w =
          Run.ofExcept (frame.load w x) w := rfl
      rw [hget]
      cases frame.load w x <;> rfl
    change EStateM.bind _ k a = EStateM.bind _ k a
    unfold EStateM.bind
    rw [hload]
  rw [hleft]
  cases hx with
  | @loadLocal name slot =>
    refine S.ends_of_instr hh.1 hab fun b' hb' => ?_
    refine S.ends_of_load _ (b'.frame.loadLocal slot (S.p.unit.nameOfLocal slot))
      ⟨ip + 3, stack, iterators⟩ ?_ hb' fun v => h v [v] a b' rfl hb'
    rw [← hb'.1]
    rcases a.frame.loadLocal_cases slot with ⟨v, hv⟩ | ⟨e, he⟩ | hu
    · exact .inl ⟨v, hv _, hv _⟩
    · exact .inr ⟨e, e, he _, he _, S.reasons_refl _⟩
    · exact .inr ⟨_, _, hu _, hu _, hn⟩
  | @loadGlobal name slot =>
    refine S.ends_of_instr hh.1 hab fun b' hb' => ?_
    refine S.ends_of_load _ (b'.frame.loadGlobal b'.world slot (S.p.unit.nameOfGlobal slot))
      ⟨ip + 3, stack, iterators⟩ ?_ hb' fun v => h v [v] a b' rfl hb'
    have hw (name : String) : b'.frame.loadGlobal b'.world slot name =
        a.frame.loadGlobal a.world slot name := by
      rw [Frame.loadGlobal, Frame.loadGlobal, ← hb'.1, A.readGlobal hb'.2]
    rw [hw]
    rcases a.frame.loadGlobal_cases a.world slot with ⟨v, hv⟩ | hu
    · exact .inl ⟨v, hv _, hv _⟩
    · exact .inr ⟨_, _, hu _, hu _, hn⟩
  | @loadUniversal name i hi =>
    refine S.ends_of_instr hh.1 hab fun b' hb' => ?_
    rw [Machine.execute, hi]
    exact S.ends_of_alike (Alike.ofExcept (loadUniversal name)) hb' fun v a₁ b₁ hab₁ =>
      h v [v] a₁ b₁ rfl hab₁

mutual

theorem expr : ∀ {e : Expr} {is : List Instr}, ExprCode S.p e is → (∀ x ∈ e.idents, S.Named x) →
    S.Pushes (Activation.lift fun frame => Expr.eval S.call frame e) (fun v vs => vs = [v]) is
  | _, _, .loadLocal, hn => S.ident .loadLocal (hn _ (by simp [Expr.idents]))
  | _, _, .loadGlobal, hn => S.ident .loadGlobal (hn _ (by simp [Expr.idents]))
  | _, _, .loadUniversal hi, hn => S.ident (.loadUniversal hi) (hn _ (by simp [Expr.idents]))
  | _, _, .small (n := n) (k := d) hd, _ => by
    intro ip stack iterators k a b hh hab h
    simp only [Expr.eval]
    refine S.ends_of_instr hh.1 hab fun b' hb' => ?_
    have := h (.int n) [.int n] a b' rfl hb'
    subst hd
    exact this
  | _, _, .int hi, _ => by
    intro ip stack iterators k a b hh hab h
    simp only [Expr.eval]
    refine S.ends_of_instr hh.1 hab fun b' hb' => ?_
    rw [Machine.execute, hi]
    exact h _ _ a b' rfl hb'
  | _, _, .str hi, _ => by
    intro ip stack iterators k a b hh hab h
    simp only [Expr.eval]
    refine S.ends_of_instr hh.1 hab fun b' hb' => ?_
    rw [Machine.execute, hi]
    exact h _ _ a b' rfl hb'
  | _, _, .add hl hr, hn => by
    intro ip stack iterators k a b hh hab h
    simp only [Expr.eval, Activation.lift_bind, Activation.lift_ofExcept, bind_assoc]
    obtain ⟨hhl, hhr, hadd, -⟩ : _ ∧ _ ∧ _ := by
      simpa only [CodeUnit.holds_append, CodeUnit.holds_cons] using hh
    refine expr hl (fun x hx => hn x (by simp [Expr.idents, hx])) _ _ iterators _ a b hhl hab ?_
    rintro u _ a₁ b₁ rfl hab₁
    refine expr hr (fun x hx => hn x (by simp [Expr.idents, hx])) _ _ iterators _ a₁ b₁ hhr hab₁ ?_
    rintro v _ a₂ b₂ rfl hab₂
    refine S.ends_of_instr hadd hab₂ fun b₃ hab₃ => ?_
    have hsum : BinaryOp.add.apply u v = u.add v := rfl
    rw [hsum]
    refine S.ends_of_alike (Alike.ofExcept (u.add v)) hab₃ fun sum a₄ b₄ hab₄ => ?_
    have := h sum _ a₄ b₄ rfl hab₄
    simpa [Machine.push, Nat.add_assoc] using this
  | _, _, .call hf ha hlen, hn => by
    intro ip stack iterators k a b hh hab h
    simp only [Expr.eval, Activation.lift_bind, bind_assoc]
    obtain ⟨hhf, hha, hcall, -⟩ : _ ∧ _ ∧ _ := by
      simpa only [CodeUnit.holds_append, CodeUnit.holds_cons] using hh
    refine expr hf (fun x hx => hn x (by simp [Expr.idents, hx])) _ _ iterators _ a b hhf hab ?_
    rintro f _ a₁ b₁ rfl hab₁
    refine args ha (fun x hx => hn x (by simp [Expr.idents, hx])) _ _ iterators _ a₁ b₁ hha hab₁ ?_
    rintro _ vs a₂ b₂ ⟨rfl, hvs⟩ hab₂
    refine S.ends_of_instr hcall hab₂ fun b₃ hab₃ => ?_
    rw [Machine.execute, hlen, ← hvs, Machine.popArgs_append]
    refine S.ends_of_alike (A.lift fun _ => S.callers f _) hab₃ fun v a₄ b₄ hab₄ => ?_
    have := h v _ a₄ b₄ rfl hab₄
    simpa [Machine.push, Nat.add_assoc] using this

theorem args : ∀ {es : List Arg} {is : List Instr}, ArgsCode S.p es is →
    (∀ x ∈ argIdents es, S.Named x) →
    S.Pushes (Activation.lift fun frame => evalArgs S.call frame es)
      (fun args vs => args = { positional := vs.reverse } ∧ vs.length = es.length) is
  | _, _, .nil, _ => by
    intro ip stack iterators k a b hh hab h
    simp only [evalArgs]
    exact h {} [] a b ⟨rfl, rfl⟩ hab
  | _, _, .cons he hr, hn => by
    intro ip stack iterators k a b hh hab h
    simp only [evalArgs, Activation.lift_bind, Activation.lift_pure, bind_assoc, pure_bind]
    obtain ⟨hhe, hhr⟩ : _ ∧ _ := by
      simpa only [CodeUnit.holds_append, CodeUnit.holds_cons] using hh
    refine expr he (fun x hx => hn x (by simp [argIdents, hx])) ip stack iterators _ a b hhe hab ?_
    rintro v _ a₁ b₁ rfl hab₁
    refine args hr (fun x hx => hn x (by simp [argIdents, hx])) _ _ iterators _ a₁ b₁ hhr hab₁ ?_
    rintro _ vs a₂ b₂ ⟨rfl, hvs⟩ hab₂
    have := h { positional := v :: vs.reverse } (vs ++ [v]) a₂ b₂ ⟨by simp, by simp [hvs]⟩ hab₂
    simpa [Nat.add_assoc] using this

end

theorem store {x : Ident} {i : Instr} (hx : x.storeInstr? = some i) {ip : Nat} {v : Value}
    {stack : List Value} {iterators : List (List Value)} {k : Unit → Run Activation Value}
    {a b : Activation} (hi : S.p.unit.instr? ip = some i) (hab : A.Acts a b)
    (h : ∀ a' b', A.Acts a' b' → S.Ends (k () a') ⟨ip + i.size, stack, iterators⟩ b') :
    S.Ends ((Activation.store x v >>= k) a) ⟨ip, v :: stack, iterators⟩ b := by
  refine S.ends_of_instr hi hab fun b₁ hab₁ => ?_
  have hgo := S.ends_of_alike (A.store x v) hab₁ fun _ a' b' hab' => h a' b' hab'
  cases x with
  | localVar name slot =>
    obtain rfl := Option.some.inj hx
    exact hgo
  | globalVar name slot =>
    obtain rfl := Option.some.inj hx
    exact hgo
  | universal name => cases hx

/-- The code `is` does what `x` does: it returns from the unit if `x` returns from the function, and
goes on behind its end otherwise. -/
def Runs (x : Run Activation (Option Value)) (is : List Instr) : Prop :=
  ∀ (ip : Nat) (stack : List Value) (iterators : List (List Value))
    (k : Option Value → Run Activation Value) (a b : Activation),
    S.p.unit.Holds ip is → A.Acts a b → (∀ v, k (some v) = pure v) →
    (∀ a' b', A.Acts a' b' → S.Ends (k none a') ⟨ip + codeSize is, stack, iterators⟩ b') →
    S.Ends ((x >>= k) a) ⟨ip, stack, iterators⟩ b

theorem define {target : Ident} {fn : FunctionDef} {i : UInt16} {store : Instr} (hm : S.Makes fn)
    (hi : S.p.unit.functionAt? i = some fn.id) (hf : (S.p.functions.get? fn.id).isSome)
    (hs : target.storeInstr? = some store) :
    S.Runs (Stmt.run S.settings S.call (.define target fn)) [.makeFunction i, store] := by
  intro ip stack iterators k a b hh hab hret h
  obtain ⟨hmake, hstore, -⟩ := hh
  rw [Stmt.run]
  refine S.ends_of_announce rfl hab fun a₁ hab₁ => ?_
  refine S.ends_of_instr hmake hab₁ fun b₂ hab₂ => ?_
  have hget : (S.p.unit.functionAt? i).bind S.p.functions.get? = some fn := by
    obtain ⟨g, hg⟩ := Option.isSome_iff_exists.mp hf
    rw [hi, Option.bind_some, hg, hm.2 g hg]
  rw [Machine.execute, hget]
  simp only [bind_assoc]
  have hreport : A.Acts a₁ ⟨b₂.frame, b₂.world.emitEvent (.makeFunction S.p.unit.name fn.name)⟩ :=
    ⟨hab₂.1, A.report_right rfl hab₂.2⟩
  refine S.ends_of_alike (A.define hm.1) hreport fun f a₃ b₃ hab₃ => ?_
  refine S.store hs hstore hab₃ fun a₄ b₄ hab₄ => ?_
  have := h a₄ b₄ hab₄
  simpa [Nat.add_assoc] using this

/-- A loop at its head: the iterator on top holds the elements still to come. -/
theorem loop {target : Ident} {body : List Stmt} {js : List Instr} {store : Instr}
    {exit back : Int16} {start : Nat} (hs : target.storeInstr? = some store)
    (hbody : S.Runs (runBlock S.settings S.call body) js)
    (hh : S.p.unit.Holds start (.forIter exit :: store :: (js ++ [.jump back])))
    (hexit : exit.toInt = store.size + codeSize js + 3)
    (hback : back.toInt = -(3 + store.size + codeSize js + 3 : Int)) (items : List Value)
    {stack : List Value} {iterators : List (List Value)} {k : Option Value → Run Activation Value}
    {a b : Activation} (hab : A.Acts a b) (hret : ∀ v, k (some v) = pure v)
    (h : ∀ a' b', A.Acts a' b' →
      S.Ends (k none a') ⟨start + 3 + store.size + codeSize js + 3, stack, iterators⟩ b') :
    S.Ends ((eachUntil (fun item => do
      Expr.assign (.ident target) item
      runBlock S.settings S.call body) items >>= k) a) ⟨start, stack, items :: iterators⟩ b := by
  obtain ⟨hhead, hstore, hh⟩ := hh
  obtain ⟨hhb, hjump, -⟩ : _ ∧ _ := by
    simpa only [CodeUnit.holds_append, CodeUnit.holds_cons] using hh
  have hiter : (Instr.forIter exit).size = 3 := rfl
  rw [hiter] at hstore hhb hjump
  induction items generalizing a b with
  | nil =>
    rw [eachUntil, pure_bind]
    refine S.ends_of_instr hhead hab fun b₁ hab₁ => ?_
    have hto : jumpFrom (start + 3) exit = start + 3 + store.size + codeSize js + 3 :=
      jumpFrom_eq (by rw [hexit]; push_cast; omega)
    change S.Ends _ ⟨jumpFrom (start + 3) exit, stack, iterators⟩ b₁
    rw [hto]
    exact h a b₁ hab₁
  | cons v rest ih =>
    rw [eachUntil]
    simp only [bind_assoc, Expr.assign]
    refine S.ends_of_instr hhead hab fun b₁ hab₁ => ?_
    refine S.store hs hstore hab₁ fun a₂ b₂ hab₂ => ?_
    refine hbody _ stack (rest :: iterators) _ a₂ b₂ hhb hab₂ (fun v => by simp [hret])
      fun a₃ b₃ hab₃ => ?_
    refine S.ends_of_instr hjump hab₃ fun b₄ hab₄ => ?_
    have hto : jumpFrom (start + 3 + store.size + codeSize js + 3) back = start :=
      jumpFrom_eq (by rw [hback]; push_cast; omega)
    change S.Ends _ ⟨jumpFrom (start + 3 + store.size + codeSize js + 3) back, stack, _⟩ b₄
    rw [hto]
    exact ih hab₄

mutual

theorem stmt : ∀ {s : Stmt} {is : List Instr}, StmtCode S.p s is →
    (∀ x ∈ s.idents, S.Named x) → (∀ fn ∈ s.defs, S.Makes fn) →
    S.Runs (s.run S.settings S.call) is
  | _, _, .ret he, hn, _ => by
    intro ip stack iterators k a b hh hab hret h
    obtain ⟨hhe, hend, -⟩ : _ ∧ _ := by
      simpa only [CodeUnit.holds_append, CodeUnit.holds_cons] using hh
    rw [Stmt.run]
    refine S.ends_of_announce rfl hab fun a₁ hab₁ => ?_
    simp only [bind_map_left, hret]
    refine S.expr he (fun x hx => hn x (by simpa [Stmt.idents] using hx)) ip stack iterators _ a₁ b
      hhe hab₁ ?_
    rintro v _ a₂ b₂ rfl hab₂
    exact S.ends_of_instr hend hab₂ fun b₃ hab₃ => ⟨_, rfl, .ok hab₃⟩
  | _, _, .retNone, _, _ => by
    intro ip stack iterators k a b hh hab hret h
    obtain ⟨hpush, hend, -⟩ := hh
    rw [Stmt.run]
    refine S.ends_of_announce rfl hab fun a₁ hab₁ => ?_
    simp only [pure_bind, hret]
    refine S.ends_of_instr hpush hab₁ fun b₂ hab₂ => ?_
    exact S.ends_of_instr hend hab₂ fun b₃ hab₃ => ⟨_, rfl, .ok hab₃⟩
  | _, _, .eval he, hn, _ => by
    intro ip stack iterators k a b hh hab hret h
    obtain ⟨hhe, hpop, -⟩ : _ ∧ _ := by
      simpa only [CodeUnit.holds_append, CodeUnit.holds_cons] using hh
    rw [Stmt.run]
    refine S.ends_of_announce rfl hab fun a₁ hab₁ => ?_
    simp only [bind_assoc, pure_bind]
    refine S.expr he (fun x hx => hn x (by simpa [Stmt.idents] using hx)) ip stack iterators _ a₁ b
      hhe hab₁ ?_
    rintro v _ a₂ b₂ rfl hab₂
    refine S.ends_of_instr hpop hab₂ fun b₃ hab₃ => ?_
    have hgo := h a₂ b₃ hab₃
    simp only [codeSize_append, codeSize_cons, codeSize_nil, ← Nat.add_assoc] at hgo
    exact hgo
  | _, _, .define hi hf hs, _, hd => S.define (hd _ (by simp [Stmt.defs])) hi hf hs
  | _, _, @StmtCode.forEach _ _ _ _ is js _ _ _ hc hs hb hexit hback, hn, hd => by
    intro ip stack iterators k a b hh hab hret h
    rw [CodeUnit.holds_append, CodeUnit.holds_cons] at hh
    obtain ⟨hhc, hget, hloop⟩ := hh
    rw [Stmt.run]
    refine S.ends_of_announce rfl hab fun a₁ hab₁ => ?_
    simp only [bind_assoc]
    refine S.expr hc (fun x hx => hn x (by simp [Stmt.idents, hx])) ip stack iterators _ a₁ b
      hhc hab₁ ?_
    rintro v _ a₂ b₂ rfl hab₂
    refine S.ends_of_instr hget hab₂ fun b₃ hab₃ => ?_
    refine S.ends_of_alike (Alike.ofExcept v.items) hab₃ fun items a₄ b₄ hab₄ => ?_
    have hbody := block hb (fun x hx => hn x (by simp [Stmt.idents, hx]))
      (fun fn hf => hd fn (by simpa [Stmt.defs] using hf))
    refine S.loop hs hbody hloop hexit hback items hab₄ hret fun a₅ b₅ hab₅ => ?_
    have hgo := h a₅ b₅ hab₅
    simp only [codeSize_append, codeSize_cons, codeSize_nil, ← Nat.add_assoc] at hgo
    exact hgo

theorem block : ∀ {body : List Stmt} {is : List Instr}, BlockCode S.p body is →
    (∀ x ∈ blockIdents body, S.Named x) → (∀ fn ∈ blockDefs body, S.Makes fn) →
    S.Runs (runBlock S.settings S.call body) is
  | _, _, .nil, _, _ => by
    intro ip stack iterators k a b hh hab hret h
    rw [runBlock, pure_bind]
    exact h a b hab
  | _, _, .cons hs hr, hn, hd => by
    intro ip stack iterators k a b hh hab hret h
    obtain ⟨hhs, hhr⟩ : _ ∧ _ := by
      simpa only [CodeUnit.holds_append, CodeUnit.holds_cons] using hh
    rw [runBlock, bind_assoc]
    refine stmt hs (fun x hx => hn x (by simp [blockIdents, hx]))
      (fun fn hf => hd fn (by simp [blockDefs, hf])) ip stack iterators _ a b hhs hab
      (fun v => by simp [hret]) fun a₁ b₁ hab₁ => ?_
    refine block hr (fun x hx => hn x (by simp [blockIdents, hx]))
      (fun fn hf => hd fn (by simp [blockDefs, hf])) _ stack iterators k a₁ b₁ hhr hab₁ hret
      fun a₂ b₂ hab₂ => ?_
    have := h a₂ b₂ hab₂
    simpa [Nat.add_assoc] using this

end

/-- A whole function: what its body leaves undecided, the return of None behind it decides. -/
theorem function {fn : FunctionDef} {is : List Instr} (hr : Renders S.p fn is)
    (hn : ∀ x ∈ fn.idents, S.Named x) (hd : ∀ g ∈ fn.defs, S.Makes g) {a b : Activation}
    (hab : A.Acts a b) :
    SameEnd S.reasons A.Acts (fn.interpret S.settings S.call a)
      (S.p.execute S.settings' S.call' b) := by
  obtain ⟨hbody, hpush, hret, -⟩ : _ ∧ _ ∧ _ := by
    simpa only [CodeUnit.holds_append, CodeUnit.holds_cons] using hr.holds
  obtain ⟨q, hq, hend⟩ : S.Ends (fn.interpret S.settings S.call a) {} b := by
    refine S.block hr.block hn hd 0 [] [] _ a b hbody hab (fun v => rfl) fun a₁ b₁ hab₁ => ?_
    refine S.ends_of_instr hpush hab₁ fun b₂ hab₂ => ?_
    exact S.ends_of_instr hret hab₂ fun b₃ hab₃ => ⟨_, rfl, .ok hab₃⟩
  rw [Lowered.execute, hq]
  exact hend

theorem named_of_singleNamed {fn : FunctionDef} {is : List Instr} (hr : Renders S.p fn is)
    (h : fn.SingleNamed) : ∀ x ∈ fn.idents, S.Named x := by
  intro x hx
  cases x with
  | localVar name slot =>
    have hm : (slot, name) ∈ fn.localUses :=
      List.mem_append_right _ (List.mem_filterMap.mpr ⟨_, hx, rfl⟩)
    rw [Named, CodeUnit.nameOfLocal, hr.localNames, nameOfSlot_tagAll h.1 hm]
    exact S.reasons_refl _
  | globalVar name slot =>
    have hm : (slot, name) ∈ fn.globalUses := List.mem_filterMap.mpr ⟨_, hx, rfl⟩
    rw [Named, CodeUnit.nameOfGlobal, hr.globalNames, nameOfSlot_tagAll h.2 hm]
    exact S.reasons_refl _
  | universal name => trivial

theorem makes_of_distinctDefs {fn : FunctionDef} {is : List Instr} (hr : Renders S.p fn is)
    (h : fn.DistinctDefs) (ha : ∀ g ∈ fn.defs, A.admits g) : ∀ g ∈ fn.defs, S.Makes g := by
  intro g hg
  refine ⟨ha g hg, fun f hf => ?_⟩
  have hid : f.id = g.id := by simpa using List.find?_some hf
  exact h f (hr.table f (List.mem_of_find?_eq_some hf)) g hg hid

end Simulation

/-- A function whose slots go by one name each runs alike in either engine. -/
theorem FunctionDef.lower_alike (A : Alignment) {call call' : Caller} (hc : A.Callers call call')
    (settings settings' : ExecSettings) {fn : FunctionDef} {p : Lowered} (hp : fn.lower = .ok p)
    (hs : fn.SingleNamed) (hd : fn.DistinctDefs) (ha : ∀ g ∈ fn.defs, A.admits g) :
    Alike A.Acts (fn.interpret settings call) (p.execute settings' call') := by
  intro a b hab
  obtain ⟨is, hr⟩ := FunctionDef.lower_renders hp
  let S : Simulation A := ⟨call, call', hc, settings, settings', p, Eq, fun _ => rfl⟩
  exact S.function hr (S.named_of_singleNamed hr hs) (S.makes_of_distinctDefs hr hd ha) hab

end Tiered
