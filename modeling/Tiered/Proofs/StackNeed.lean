import Tiered.Proofs.LoweredVerification
import Tiered.Proofs.Spans

/-! How much stack a function needs, by recursion on its body. Verification of lowered code, which
looks at instructions only, comes to the same numbers. -/
namespace Tiered

mutual

/-- The values on the stack while an expression is evaluated, at most. An operand or argument finds
those before it already there. -/
def Expr.need : Expr → Nat
  | .ident _ | .int _ | .str _ => 1
  | .binary _ lhs rhs => max lhs.need (1 + rhs.need)
  | .call callee args => max callee.need (argsNeed 1 args)
  | .list _ => 0

/-- The need of arguments that follow `i` values of the same call. -/
def argsNeed (i : Nat) : List Arg → Nat
  | [] => 0
  | .positional e :: rest | .keyword _ e :: rest => max (i + e.need) (argsNeed (i + 1) rest)

end

def Stmt.isReturn : Stmt → Bool
  | .ret _ => true
  | _ => false

mutual

def Stmt.need : Stmt → Nat
  | .ret none => 1
  | .ret (some e) | .eval e => e.need
  | .define _ _ => 1
  | .forEach _ collection body => max collection.need (max 1 (blockNeed body))
  | .branch _ _ _ | .assign _ _ | .pass => 0

/-- Of a block, only the statements up to the first return count. -/
def blockNeed : List Stmt → Nat
  | [] => 0
  | s :: rest => if s.isReturn then s.need else max s.need (blockNeed rest)

end

mutual

def Stmt.nesting : Stmt → Nat
  | .forEach _ _ body => 1 + blockNesting body
  | .ret _ | .eval _ | .define _ _ | .branch _ _ _ | .assign _ _ | .pass => 0

def blockNesting : List Stmt → Nat
  | [] => 0
  | s :: rest => if s.isReturn then s.nesting else max s.nesting (blockNesting rest)

end

mutual

def Expr.instrCount : Expr → Nat
  | .ident _ | .int _ | .str _ => 1
  | .binary _ lhs rhs => lhs.instrCount + (rhs.instrCount + 1)
  | .call callee args => callee.instrCount + (argsInstrCount args + 1)
  | .list _ => 0

def argsInstrCount : List Arg → Nat
  | [] => 0
  | .positional e :: rest | .keyword _ e :: rest => e.instrCount + argsInstrCount rest

end

mutual

def Stmt.instrCount : Stmt → Nat
  | .ret none | .define _ _ => 2
  | .ret (some e) | .eval e => e.instrCount + 1
  | .forEach _ collection body => collection.instrCount + (blockInstrCount body + 4)
  | .branch _ _ _ | .assign _ _ | .pass => 0

def blockInstrCount : List Stmt → Nat
  | [] => 0
  | s :: rest => s.instrCount + blockInstrCount rest

end

/-- A statement of a body, the number of the instruction its code starts with, and the number of
loops around it. -/
structure Site where
  start : Nat
  loops : Nat
  stmt : Stmt

mutual

/-- The sites inside of a statement. The body of a loop follows the collection and three
instructions that set up the loop and store its element. -/
def Stmt.sites (start loops : Nat) : Stmt → List Site
  | .forEach _ collection body => blockSites (start + collection.instrCount + 3) (loops + 1) body
  | .ret _ | .eval _ | .define _ _ | .branch _ _ _ | .assign _ _ | .pass => []

/-- The sites of a block that control can come to: none behind a return. -/
def blockSites (start loops : Nat) : List Stmt → List Site
  | [] => []
  | s :: rest =>
    ⟨start, loops, s⟩ :: (s.sites start loops ++
      if s.isReturn then [] else blockSites (start + s.instrCount) loops rest)

end

section Spans

variable {p : Lowered} {o top deep : Nat} {d d' : Depth} {is : List Instr}

theorem Span.of_eq {out : Option Depth} {top' deep' : Nat} (h : Span o d is out top deep)
    (htop : top = top') (hdeep : deep = deep') : Span o d is out top' deep' := by
  rw [← htop, ← hdeep]
  exact h

theorem Span.out_le (h : Span o d is (some d') top deep) : d'.values ≤ top ∧ d'.loops ≤ deep :=
  ⟨h.values.2 ⟨_, d', h.ends.mpr rfl, rfl⟩, h.loops.2 ⟨_, d', h.ends.mpr rfl, rfl⟩⟩

/-- One more instruction, which passes control on. -/
theorem Span.snoc (h : Span o d is (some d') top deep) {i : Instr} (values loops : Nat)
    (hs : d'.Suffices i) (hjump : i.distance? = none) (hflow : i.opcode.endsFlow = false)
    (hafter : i.depthAfter d' = ⟨values, loops⟩) :
    Span o d (is ++ [i]) (some ⟨values, loops⟩) (max top values) (max deep loops) := by
  have hsingle := Span.single (o := o + codeSize is) hs hjump hflow
  rw [hafter] at hsingle
  have hout := h.out_le
  exact (h.append hsingle).of_eq (by dsimp only; omega) (by dsimp only; omega)

/-- An instruction that pushes a value, and does nothing else to the stacks or to control. -/
theorem Span.push {i : Instr} (hpops : i.effect.pops = 0) (hjump : i.distance? = none)
    (hflow : i.opcode.endsFlow = false) (o : Nat) (d : Depth)
    (hafter : i.depthAfter d = ⟨d.values + 1, d.loops⟩) :
    Span o d [i] (some ⟨d.values + 1, d.loops⟩) (d.values + 1) d.loops := by
  have hs : d.Suffices i := by
    refine ⟨hpops ▸ Nat.zero_le _, fun hop => ?_⟩
    cases i <;> cases hop
    cases hjump
  exact ((Span.nil o d).snoc _ _ hs hjump hflow hafter).of_eq (by omega) (by omega)

theorem Span.store {target : Ident} {store : Instr} (h : target.storeInstr? = some store)
    (o values loops : Nat) :
    Span o ⟨values + 1, loops⟩ [store] (some ⟨values, loops⟩) (values + 1) loops := by
  have hnil := Span.nil o ⟨values + 1, loops⟩
  have hspan : Span o ⟨values + 1, loops⟩ [store] (some ⟨values, loops⟩)
      (max (values + 1) values) (max loops loops) := by
    cases target with
    | localVar name slot =>
      obtain rfl := Option.some.inj h
      exact hnil.snoc _ _ ⟨Nat.succ_pos _, nofun⟩ rfl rfl rfl
    | globalVar name slot =>
      obtain rfl := Option.some.inj h
      exact hnil.snoc _ _ ⟨Nat.succ_pos _, nofun⟩ rfl rfl rfl
    | universal name => cases h
  exact hspan.of_eq (by omega) (by omega)

mutual

theorem ExprCode.span : ∀ {e : Expr} {is : List Instr}, ExprCode p e is → ∀ (o : Nat) (d : Depth),
    Span o d is (some ⟨d.values + 1, d.loops⟩) (d.values + e.need) d.loops
  | _, _, .loadLocal, o, d | _, _, .loadGlobal, o, d | _, _, .loadUniversal _, o, d
  | _, _, .small _, o, d | _, _, .int _, o, d | _, _, .str _, o, d =>
    .push rfl rfl rfl o d rfl
  | _, _, @ExprCode.add _ l r is js hl hr, o, d => by
    have hboth := (hl.span o d).append (hr.span (o + codeSize is) ⟨d.values + 1, d.loops⟩)
    have hadd := hboth.snoc (i := .add) (d.values + 1) d.loops
      ⟨show 2 ≤ d.values + 1 + 1 by omega, nofun⟩ rfl rfl rfl
    rw [List.append_assoc] at hadd
    exact hadd.of_eq (by rw [Expr.need]; dsimp only; omega) (by dsimp only; omega)
  | _, _, @ExprCode.call _ f args is js n hf ha hn, o, d => by
    have hcallee := hf.span o d
    have hboth := hcallee.append (ha.span (o + codeSize is) d.values 1 d.loops)
    have hafter : (Instr.call n).depthAfter ⟨d.values + 1 + args.length, d.loops⟩ =
        ⟨d.values + 1, d.loops⟩ := by
      change (⟨d.values + 1 + args.length - (n.toNat + 1) + 1, d.loops⟩ : Depth) = _
      rw [hn]
      congr 1
      omega
    have hcall := hboth.snoc (i := .call n) _ _
      ⟨show n.toNat + 1 ≤ d.values + 1 + args.length by omega, nofun⟩ rfl rfl hafter
    rw [List.append_assoc] at hcall
    have hone := hcallee.out_le.1
    exact hcall.of_eq (by rw [Expr.need]; dsimp only at hone; omega) (by omega)

theorem ArgsCode.span : ∀ {args : List Arg} {is : List Instr}, ArgsCode p args is →
    ∀ (o base i loops : Nat), Span o ⟨base + i, loops⟩ is (some ⟨base + i + args.length, loops⟩)
      (base + max i (argsNeed i args)) loops
  | _, _, .nil, o, base, i, loops =>
    (Span.nil o ⟨base + i, loops⟩).of_eq (by rw [argsNeed]; dsimp only; omega) rfl
  | _, _, @ArgsCode.cons _ e rest is js he hr, o, base, i, loops => by
    have hfirst := he.span o ⟨base + i, loops⟩
    have hrest := hr.span (o + codeSize is) base (i + 1) loops
    have hone := hfirst.out_le.1
    have hlength : base + (i + 1) + rest.length = base + i + (rest.length + 1) := by omega
    rw [hlength] at hrest
    dsimp only at hfirst hone
    exact (hfirst.append hrest).of_eq (by rw [argsNeed]; omega) (by omega)

end

/-- The depths with which control comes out of a statement that it entered with depths `d`. -/
def Stmt.exit? (d : Depth) (s : Stmt) : Option Depth :=
  if s.isReturn then none else some d

def blockExit? (d : Depth) (body : List Stmt) : Option Depth :=
  if body.any Stmt.isReturn then none else some d

/-- Where the element of a loop is stored and the body of the loop follows. -/
theorem Span.body {target : Ident} {store : Instr} (h : target.storeInstr? = some store)
    {js : List Instr} {out : Option Depth} {values loops : Nat}
    (hb : Span (o + store.size) ⟨values, loops⟩ js out top deep) :
    Span o ⟨values + 1, loops⟩ (store :: js) out (max (values + 1) top) (max loops deep) :=
  (Span.store h o values loops).append hb

mutual

theorem StmtCode.span : ∀ {s : Stmt} {is : List Instr}, StmtCode p s is → ∀ (o : Nat) (d : Depth),
    Span o d is (s.exit? d) (d.values + s.need) (d.loops + s.nesting)
  | _, _, @StmtCode.ret _ e is he, o, d => by
    have hspan := (he.span o d).append (Span.ret (o + codeSize is) _)
    have hone := (he.span o d).out_le.1
    exact hspan.of_eq (by rw [Stmt.need]; dsimp only at hone ⊢; omega)
      (by rw [Stmt.nesting]; dsimp only; omega)
  | _, _, .retNone, o, d => by
    have hpush : Span o d [.pushNone] _ _ _ := .push rfl rfl rfl o d rfl
    exact (hpush.append (Span.ret _ _)).of_eq (by rw [Stmt.need]; dsimp only; omega)
      (by rw [Stmt.nesting]; dsimp only; omega)
  | _, _, @StmtCode.eval _ e is he, o, d => by
    have hspan := (he.span o d).snoc (i := .pop) d.values d.loops ⟨Nat.succ_pos _, nofun⟩ rfl rfl
      rfl
    exact hspan.of_eq (by rw [Stmt.need]; omega) (by rw [Stmt.nesting]; omega)
  | _, _, @StmtCode.define _ target fn i store _ _ hs, o, d => by
    have hpush : Span o d [.makeFunction i] _ _ _ := .push rfl rfl rfl o d rfl
    have hspan := hpush.append (Span.store hs _ d.values d.loops)
    exact hspan.of_eq (by rw [Stmt.need]; omega) (by rw [Stmt.nesting]; omega)
  | _, _, @StmtCode.forEach _ target collection body is js store exit back hc hs hb hexit hback,
      o, d => by
    have hiter := (hc.span o d).snoc (i := .getIter) d.values (d.loops + 1)
      ⟨Nat.succ_pos _, nofun⟩ rfl rfl rfl
    have hbody := hb.span (o + codeSize (is ++ [.getIter]) + 3 + store.size) ⟨d.values, d.loops + 1⟩
    have hloop : Span _ ⟨d.values, d.loops + 1⟩ (.forIter exit :: (store :: js ++ [.jump back]))
        _ _ _ := (Span.body hs hbody).loop (fun e he => ?_) ?_ ?_
    · have hwhole := hiter.append hloop
      rw [List.append_assoc] at hwhole
      exact hwhole.of_eq (by rw [Stmt.need]; dsimp only; omega)
        (by rw [Stmt.nesting]; dsimp only; omega)
    · unfold blockExit? at he
      split at he
      · cases he
      · exact (Option.some.inj he).symm
    · rw [hexit, codeSize_cons]
      push_cast
      rfl
    · rw [hback, codeSize_cons]
      push_cast
      omega

theorem BlockCode.span : ∀ {body : List Stmt} {is : List Instr}, BlockCode p body is →
    ∀ (o : Nat) (d : Depth),
      Span o d is (blockExit? d body) (d.values + blockNeed body) (d.loops + blockNesting body)
  | _, _, .nil, o, d => Span.nil o d
  | _, _, @BlockCode.cons _ s rest is js hs hr, o, d => by
    have hfirst := hs.span o d
    by_cases hreturn : s.isReturn
    · have hexit : s.exit? d = none := if_pos hreturn
      have hexit' : blockExit? d (s :: rest) = none := by simp [blockExit?, hreturn]
      rw [hexit] at hfirst
      rw [hexit', blockNeed, blockNesting, if_pos hreturn, if_pos hreturn]
      exact hfirst.append_unreached js
    · have hexit : s.exit? d = some d := if_neg hreturn
      have hexit' : blockExit? d (s :: rest) = blockExit? d rest := by simp [blockExit?, hreturn]
      rw [hexit] at hfirst
      rw [hexit', blockNeed, blockNesting, if_neg hreturn, if_neg hreturn]
      exact (hfirst.append (hr.span (o + codeSize is) d)).of_eq (by omega) (by omega)

end

end Spans

section Sites

variable {p : Lowered}

mutual

theorem ExprCode.length_eq : ∀ {e : Expr} {is : List Instr}, ExprCode p e is →
    is.length = e.instrCount
  | _, _, .loadLocal | _, _, .loadGlobal | _, _, .loadUniversal _ | _, _, .small _ | _, _, .int _
  | _, _, .str _ => rfl
  | _, _, .add hl hr => by
    simp only [List.length_append, Expr.instrCount, hl.length_eq, hr.length_eq,
      List.length_singleton]
  | _, _, .call hf ha _ => by
    simp only [List.length_append, Expr.instrCount, hf.length_eq, ha.length_eq,
      List.length_singleton]

theorem ArgsCode.length_eq : ∀ {args : List Arg} {is : List Instr}, ArgsCode p args is →
    is.length = argsInstrCount args
  | _, _, .nil => rfl
  | _, _, .cons he hr => by
    rw [List.length_append, argsInstrCount, he.length_eq, hr.length_eq]

end

mutual

theorem StmtCode.length_eq : ∀ {s : Stmt} {is : List Instr}, StmtCode p s is →
    is.length = s.instrCount
  | _, _, .retNone | _, _, .define _ _ _ => rfl
  | _, _, .ret he | _, _, .eval he => by
    rw [List.length_append, Stmt.instrCount, he.length_eq, List.length_singleton]
  | _, _, .forEach hc _ hb _ _ => by
    simp only [List.length_append, List.length_cons, List.length_nil, Stmt.instrCount, hc.length_eq,
      hb.length_eq]

theorem BlockCode.length_eq : ∀ {body : List Stmt} {is : List Instr}, BlockCode p body is →
    is.length = blockInstrCount body
  | _, _, .nil => rfl
  | _, _, .cons hs hr => by
    rw [List.length_append, blockInstrCount, hs.length_eq, hr.length_eq]

end

/-- In code that is entered with depths `d`, at offset `o` and instruction number `k`: the code of
the statement starts at the instruction the site says, and paths come there with as many loops as
are around the statement, and with no value more than at the entry. -/
def Site.Within (p : Lowered) (o k : Nat) (d : Depth) (is : List Instr) (site : Site) : Prop :=
  ∃ pre js post, is = pre ++ (js ++ post) ∧ site.start = k + pre.length ∧
    StmtCode p site.stmt js ∧
      Visits (locate o is) o d (o + codeSize pre : Nat) ⟨d.values, site.loops⟩

/-- The code may stand in larger code, where paths come to it with no more values. -/
theorem Site.Within.embed {o k values loops loops' : Nat} {is : List Instr} {site : Site}
    (pre post : List Instr)
    (h : site.Within p (o + codeSize pre) (k + pre.length) ⟨values, loops'⟩ is)
    (hcome : Visits (locate o (pre ++ (is ++ post))) o ⟨values, loops⟩ (o + codeSize pre : Nat)
      ⟨values, loops'⟩) :
    site.Within p o k ⟨values, loops⟩ (pre ++ (is ++ post)) := by
  obtain ⟨pre', js, post', rfl, hstart, hcode, hvisits⟩ := h
  have hsub : locate (o + codeSize pre) (pre' ++ (js ++ post')) ⊆
      locate o (pre ++ (pre' ++ (js ++ post') ++ post)) := by
    rw [locate_append o, locate_append (o + codeSize pre) _ post]
    exact List.Subset.trans (List.subset_append_left _ _) (List.subset_append_right _ _)
  refine ⟨pre ++ pre', js, post' ++ post, by simp, ?_, hcode, ?_⟩
  · rw [hstart, List.length_append, Nat.add_assoc]
  · have hthere := hcome.trans (hvisits.mono hsub)
    rwa [Nat.add_assoc, ← codeSize_append] at hthere

/-- Paths come to the body of a loop with one loop more than to its collection. -/
theorem ExprCode.visits_body {collection : Expr} {target : Ident} {is : List Instr}
    {store : Instr} (hc : ExprCode p collection is) (hs : target.storeInstr? = some store)
    (exit : Int16) (js : List Instr) (o values loops : Nat) :
    Visits (locate o (is ++ [.getIter, .forIter exit, store] ++ js)) o ⟨values, loops⟩
      (o + codeSize (is ++ [.getIter, .forIter exit, store]) : Nat) ⟨values, loops + 1⟩ := by
  let start := o + codeSize is
  have hlocate : locate o (is ++ [.getIter, .forIter exit, store]) =
      locate o is ++ [⟨start, .getIter⟩, ⟨start + 1, .forIter exit⟩, ⟨start + 1 + 3, store⟩] := by
    rw [locate_append]
    rfl
  apply Visits.append_right
  have hvalue := ((hc.span o ⟨values, loops⟩).ends.mpr rfl).append_right
    [.getIter, .forIter exit, store]
  rw [hlocate] at hvalue ⊢
  have hiter := hvalue.onward (l := ⟨start, .getIter⟩) (by simp) ⟨Nat.succ_pos _, nofun⟩ rfl
  have hnext := hiter.onward (l := ⟨start + 1, .forIter exit⟩) (by simp)
    ⟨Nat.zero_le _, fun _ => Nat.succ_pos _⟩ rfl
  have hstore := (Span.store hs (start + 1 + 3) values (loops + 1)).ends.mpr rfl
  have hstored := hnext.trans (hstore.mono fun l hl => by
    obtain rfl := List.mem_singleton.mp hl
    simp)
  have hsize : ((start + 1 + 3 : Nat) : Int) + codeSize [store] =
      (o + codeSize (is ++ [.getIter, .forIter exit, store]) : Nat) := by
    simp only [codeSize_append, codeSize_cons, codeSize_nil]
    change ((o + codeSize is + 1 + 3 : Nat) : Int) + _ = (o + (_ + (1 + (3 + _))) : Nat)
    push_cast
    omega
  rwa [hsize] at hstored

mutual

theorem StmtCode.sites_within : ∀ {s : Stmt} {is : List Instr}, StmtCode p s is →
    ∀ (o k values loops : Nat), ∀ site ∈ s.sites k loops, site.Within p o k ⟨values, loops⟩ is
  | _, _, .ret _, _, _, _, _, site, hsite | _, _, .retNone, _, _, _, _, site, hsite
  | _, _, .eval _, _, _, _, _, site, hsite | _, _, .define _ _ _, _, _, _, _, site, hsite => by
    rw [Stmt.sites] at hsite
    cases hsite
  | _, _, @StmtCode.forEach _ target collection body is js store exit back hc hs hb hexit hback,
      o, k, values, loops, site, hsite => by
    have hlength : (is ++ [.getIter, .forIter exit, store]).length = collection.instrCount + 3 := by
      rw [List.length_append, hc.length_eq]
      rfl
    rw [Stmt.sites, Nat.add_assoc, ← hlength] at hsite
    have hbody := hb.sites_within (o + codeSize (is ++ [.getIter, .forIter exit, store])) _ values
      (loops + 1) site hsite
    have hcome := hc.visits_body hs exit (js ++ [.jump back]) o values loops
    have hembed := hbody.embed _ _ hcome
    rwa [List.append_assoc] at hembed

theorem BlockCode.sites_within : ∀ {body : List Stmt} {is : List Instr}, BlockCode p body is →
    ∀ (o k values loops : Nat), ∀ site ∈ blockSites k loops body,
      site.Within p o k ⟨values, loops⟩ is
  | _, _, .nil, _, _, _, _, site, hsite => by
    rw [blockSites] at hsite
    cases hsite
  | _, _, @BlockCode.cons _ s rest is js hs hr, o, k, values, loops, site, hsite => by
    rw [blockSites, List.mem_cons, List.mem_append] at hsite
    rcases hsite with rfl | hsite | hsite
    · exact ⟨[], is, js, rfl, rfl, hs, .start⟩
    · have hinside := hs.sites_within o k values loops site hsite
      exact Site.Within.embed [] js hinside .start
    · by_cases hreturn : s.isReturn
      · rw [if_pos hreturn] at hsite
        cases hsite
      · rw [if_neg hreturn, ← hs.length_eq] at hsite
        have hrest := hr.sites_within (o + codeSize is) _ values loops site hsite
        have hspan := hs.span o ⟨values, loops⟩
        have hend := hspan.ends.mpr (if_neg hreturn)
        have hembed := hrest.embed is [] (by rw [List.append_nil]; exact hend.append_right js)
        rwa [List.append_nil] at hembed

end

end Sites

section Whole

variable {p : Lowered} {body : List Stmt} {is : List Instr}

theorem StmtCode.need_pos_of_isReturn {s : Stmt} (h : StmtCode p s is) (hreturn : s.isReturn) :
    1 ≤ s.need := by
  cases h with
  | ret he =>
    have hone := (he.span 0 ⟨0, 0⟩).out_le.1
    rw [Stmt.need]
    dsimp only at hone
    omega
  | retNone => exact Nat.le_refl _
  | _ => cases hreturn

theorem BlockCode.need_pos_of_any_isReturn (h : BlockCode p body is)
    (hreturn : body.any Stmt.isReturn) : 1 ≤ blockNeed body := by
  induction body generalizing is with
  | nil => cases hreturn
  | cons s rest ih =>
    cases h with
    | cons hs hr =>
      rw [blockNeed]
      split
      · rename_i hfirst
        exact hs.need_pos_of_isReturn hfirst
      · rename_i hfirst
        have hrest : rest.any Stmt.isReturn := by simpa [hfirst] using hreturn
        exact Nat.le_trans (ih hr hrest) (Nat.le_max_right _ _)

/-- The code of a whole function: its body, and a return of nothing for a body that comes to its
end. -/
theorem BlockCode.span_whole (h : BlockCode p body is) :
    Span 0 ⟨0, 0⟩ (is ++ [.pushNone, .ret]) none (max 1 (blockNeed body)) (blockNesting body) := by
  have hspan := h.span 0 ⟨0, 0⟩
  by_cases hreturn : body.any Stmt.isReturn
  · have hexit : blockExit? ⟨0, 0⟩ body = none := if_pos hreturn
    rw [hexit] at hspan
    have hone := h.need_pos_of_any_isReturn hreturn
    exact (hspan.append_unreached _).of_eq (by dsimp only; omega) (by dsimp only; omega)
  · have hexit : blockExit? ⟨0, 0⟩ body = some ⟨0, 0⟩ := if_neg hreturn
    rw [hexit] at hspan
    have hnone : StmtCode p (.ret none) [.pushNone, .ret] := .retNone
    have htail := hnone.span (0 + codeSize is) ⟨0, 0⟩
    exact (hspan.append htail).of_eq (by rw [Stmt.need]; dsimp only; omega)
      (by rw [Stmt.nesting]; dsimp only; omega)

/-- A unit that passes the checks has a control flow, and the depths it gives are those of paths. -/
theorem Lowered.flow_of_check {s : Summary} (hb : p.unit.code.toList = encodeAll is)
    (hc : p.check = .ok s) :
    ∃ f, Flow.explore (locate 0 is).toArray (startsOf is) is.length (.initial is.length) = .ok f ∧
      s = f.summary is.length ∧ s.Describes is ∧
        Consistent (locate 0 is).toArray (startsOf is) f.depthAt := by
  obtain ⟨is', hformed⟩ := Lowered.Formed.of_check hc
  obtain rfl : is = is' := encodeAll_injective (hb.symm.trans hformed.bytes)
  obtain ⟨hholds, hsize⟩ := CodeUnit.toList_eq_encodeAll_iff.mp hb
  obtain ⟨hne, hall⟩ := (Lowered.formed_iff hb).mp hformed
  have hlen : (locate 0 is).toArray.size = is.length := by simp
  have hpos : 0 < (locate 0 is).toArray.size := by
    rw [hlen]
    exact List.length_pos_iff.mpr hformed.nonempty
  have hexplores := Flow.explore_explores (startsOf_bound is) (Flow.initial_explored hpos)
    (Nat.le_of_eq (Flow.initial_pending hpos))
  have hcheck : exploreDepths (locate 0 is).toArray (startsOf is) = .ok s := by
    rw [Lowered.check_eq hholds hsize, if_neg hne, hall] at hc
    exact hc
  rw [exploreDepths_eq_explore] at hcheck
  cases hf : Flow.explore (locate 0 is).toArray (startsOf is) (locate 0 is).toArray.size
      (.initial (locate 0 is).toArray.size) with
  | error e =>
    rw [hf] at hcheck
    cases hcheck
  | ok f =>
    rw [hf] at hcheck hexplores
    obtain rfl : f.summary _ = s := Except.ok.inj hcheck
    have hconsistent := (hexplores.consistent (startsOf_bound is) hpos).1
    rw [hlen] at hf hexplores ⊢
    exact ⟨f, hf, rfl, (hexplores.exact hformed.nonempty).2 f rfl, hconsistent⟩

/-- Depths that agree along control flow are those at which paths enter a site. -/
theorem Site.Within.depthAt {site : Site} {depthAt : Nat → Option Depth}
    (h : site.Within p 0 0 ⟨0, 0⟩ is)
    (hc : Consistent (locate 0 is).toArray (startsOf is) depthAt) :
    depthAt site.start = some ⟨0, site.loops⟩ ∧
      ∃ js, StmtCode p site.stmt js ∧ js <+: is.drop site.start := by
  obtain ⟨pre, js, post, rfl, hstart, hjs, hvisits⟩ := h
  rw [Nat.zero_add] at hstart hvisits
  constructor
  · obtain ⟨j, hj, hd⟩ := hc.depthAt_of_reaches (reaches_iff_visits.mpr hvisits)
    have hlt : pre.length < (pre ++ (js ++ post)).length := by
      obtain ⟨l, hl, hoffset⟩ := startAt_startsOf_iff.mp hj
      have hbound := (locate_bounds (List.mem_of_getElem? hl)).2
      rw [codeSize_append] at hbound
      have hne : js ++ post ≠ [] := by
        intro hnil
        rw [hnil, codeSize_nil] at hbound
        omega
      have hpos := List.length_pos_iff.mpr hne
      rw [List.length_append]
      omega
    have hstarts : startAt (startsOf (pre ++ (js ++ post))) (codeSize pre) = some pre.length :=
      startAt_boundaries.mpr ⟨hlt, by rw [List.take_left]⟩
    obtain rfl : j = pre.length := Option.some.inj (hj.symm.trans hstarts)
    rw [hstart]
    exact hd
  · refine ⟨js, hjs, ?_⟩
    rw [hstart, List.drop_left]
    exact List.prefix_append js post

end Whole

/-- For a lowered function, verification reports the stack need of its body and the depth of its
loops, where statements behind a return do not count. At the first instruction of each statement
that control can come to, it has found no values and as many iterators as there are loops around the
statement. -/
theorem lowered_stack_need {fn : FunctionDef} {p : Lowered} {name : String} {s : Summary}
    (hp : fn.lower = .ok p) (hv : p.verify name = .ok s) :
    s.maxStack = max 1 (blockNeed fn.body) ∧ s.maxLoops = blockNesting fn.body ∧
      ∃ code f, p.unit.decode = .ok code ∧
        Flow.explore code (boundaries p.unit.size code) code.size (.initial code.size) = .ok f ∧
        s = f.summary code.size ∧
        ∀ site ∈ blockSites 0 0 fn.body,
          f.entry[site.start]? = some (some ⟨0, site.loops⟩) ∧
            ∃ js, StmtCode p site.stmt js ∧
              js <+: (code.toList.drop site.start).map Located.instr := by
  obtain ⟨is, hr⟩ := FunctionDef.lower_renders hp
  have hspan := hr.block.span_whole
  obtain ⟨f, hf, hs, hdescribes, hconsistent⟩ :=
    Lowered.flow_of_check hr.bytes (Lowered.verify_eq_ok_iff.mp hv)
  obtain ⟨hholds, hsize⟩ := CodeUnit.toList_eq_encodeAll_iff.mp hr.bytes
  refine ⟨?_, ?_, _, f, CodeUnit.decode_eq_ok_iff.mpr ⟨_, hholds, hsize, rfl⟩, ?_, ?_, ?_⟩
  · have hstack : Peak (Reaches (is ++ [.pushNone, .ret])) Depth.values s.maxStack :=
      hdescribes.maxStack
    exact hstack.unique (hspan.values.congr fun _ _ => reaches_iff_visits)
  · have hloops : Peak (Reaches (is ++ [.pushNone, .ret])) Depth.loops s.maxLoops :=
      hdescribes.maxLoops
    exact hloops.unique (hspan.loops.congr fun _ _ => reaches_iff_visits)
  · rw [← hsize, List.size_toArray, length_locate]
    exact hf
  · rw [List.size_toArray, length_locate]
    exact hs
  · intro site hsite
    have hbody := hr.block.sites_within 0 0 0 0 site hsite
    have hwhole := hbody.embed [] [.pushNone, .ret] .start
    obtain ⟨hdepth, hcode⟩ := hwhole.depthAt hconsistent
    refine ⟨Option.join_eq_some_iff.mp hdepth, ?_⟩
    rw [List.map_drop, map_instr_locate]
    exact hcode

/-- Gives back the text of the first element. What follows the first return in the loop, and the
jump back of the loop, are never reached. -/
def Demo.firstText : FunctionDef :=
  let x := Ident.localVar "x" 1
  .make 7 "first_text" ["xs"] (some 2)
    [.forEach (.ident x) (.ident (.localVar "xs" 0))
      [.ret (some (.call (.ident (.universal "str")) [.positional (.ident x)])),
        .eval (.binary .add (.int 1) (.binary .add (.int 2) (.int 3)))]]

theorem firstText_stack_need : ∃ p s, Demo.firstText.lower = .ok p ∧
    p.verify "first_text" = .ok s ∧ s.maxStack = 2 ∧ s.maxLoops = 1 := by
  have hok : (Demo.firstText.lower.toOption.bind
      fun p => (p.verify "first_text").toOption).isSome := by decide +kernel
  cases hp : Demo.firstText.lower with
  | error e => simp [hp, Except.toOption] at hok
  | ok p =>
    cases hv : p.verify "first_text" with
    | error e => simp [hp, hv, Except.toOption] at hok
    | ok s =>
      obtain ⟨hstack, hloops, -⟩ := lowered_stack_need hp hv
      exact ⟨p, s, rfl, hv, hstack, hloops⟩

end Tiered
