import Tiered.Proofs.Demand
import Tiered.Proofs.Emission

/-! Which functions are lowered: exactly those whose body stays in the subset and asks for no more
than operands can express. -/
namespace Tiered
open Lowering

/-- What operands can express: calls count their arguments in a byte, and a loop jumps back over its
body and nine bytes more. -/
@[mk_iff] structure Demand.Granted (d : Demand) : Prop where
  outside : d.outside = []
  argCounts : ∀ n ∈ d.argCounts, n ≤ 255
  loopSizes : ∀ n ∈ d.loopSizes, n ≤ 32759

structure Demand.HasRoom (d : Demand) (s : Lowered) : Prop where
  constants : (collect s.unit.constants.toList d.literals).length ≤ UInt16.size
  names : (collect s.unit.names.toList d.names).length ≤ UInt16.size
  functions : (collect s.unit.functions.toList d.functions).length ≤ UInt16.size

/-- The step from `s` to `t` did what is asked, and nothing else to pools and size. -/
structure Demand.Served (d : Demand) (s t : Lowered) : Prop where
  granted : d.Granted
  fits : t.Fits
  constants : t.unit.constants.toList = collect s.unit.constants.toList d.literals
  names : t.unit.names.toList = collect s.unit.names.toList d.names
  functions : t.unit.functions.toList = collect s.unit.functions.toList d.functions
  size : t.unit.size = s.unit.size + d.size

namespace Demand

variable {d e : Demand} {s t r : Lowered}

theorem granted_append : (d ++ e).Granted ↔ d.Granted ∧ e.Granted := by
  constructor
  · rintro ⟨ho, ha, hl⟩
    have ho' := List.append_eq_nil_iff.mp ho
    exact ⟨⟨ho'.1, fun n h => ha n (List.mem_append_left _ h),
        fun n h => hl n (List.mem_append_left _ h)⟩,
      ⟨ho'.2, fun n h => ha n (List.mem_append_right _ h),
        fun n h => hl n (List.mem_append_right _ h)⟩⟩
  · rintro ⟨hd, he⟩
    refine ⟨by simp [hd.outside, he.outside], ?_, ?_⟩
    · intro n hn
      exact (List.mem_append.mp hn).elim (hd.argCounts n) (he.argCounts n)
    · intro n hn
      exact (List.mem_append.mp hn).elim (hd.loopSizes n) (he.loopSizes n)

theorem HasRoom.left (h : (d ++ e).HasRoom s) : d.HasRoom s := by
  obtain ⟨hc, hn, hf⟩ := h
  rw [literals_append, collect_append] at hc
  rw [names_append, collect_append] at hn
  rw [functions_append, collect_append] at hf
  exact ⟨(prefix_collect _ _).length_le.trans hc, (prefix_collect _ _).length_le.trans hn,
    (prefix_collect _ _).length_le.trans hf⟩

theorem HasRoom.right (h : (d ++ e).HasRoom s) (k : d.Served s t) : e.HasRoom t := by
  obtain ⟨hc, hn, hf⟩ := h
  rw [literals_append, collect_append, ← k.constants] at hc
  rw [names_append, collect_append, ← k.names] at hn
  rw [functions_append, collect_append, ← k.functions] at hf
  exact ⟨hc, hn, hf⟩

theorem Served.trans (h : d.Served s t) (k : e.Served t r) : (d ++ e).Served s r where
  granted := granted_append.mpr ⟨h.granted, k.granted⟩
  fits := k.fits
  constants := by rw [k.constants, h.constants, literals_append, collect_append]
  names := by rw [k.names, h.names, names_append, collect_append]
  functions := by rw [k.functions, h.functions, functions_append, collect_append]
  size := by rw [k.size, h.size, size_append, Nat.add_assoc]

theorem Served.hasRoom (h : d.Served s t) : d.HasRoom s := by
  obtain ⟨hc, hn, hf⟩ := h.fits
  rw [← Array.length_toList, h.constants] at hc
  rw [← Array.length_toList, h.names] at hn
  rw [← Array.length_toList, h.functions] at hf
  exact ⟨hc, hn, hf⟩

/-- A step that leaves the pools alone. -/
theorem Served.of_code {n : Nat} (hs : s.Fits) (hc : t.unit.constants = s.unit.constants)
    (hn : t.unit.names = s.unit.names) (hf : t.unit.functions = s.unit.functions)
    (hsize : t.unit.size = s.unit.size + n) : ({ size := n } : Demand).Served s t where
  granted := ⟨rfl, by simp, by simp⟩
  fits := ⟨hc ▸ hs.constants, hn ▸ hs.names, hf ▸ hs.functions⟩
  constants := by rw [hc, collect_nil]
  names := by rw [hn, collect_nil]
  functions := by rw [hf, collect_nil]
  size := hsize

end Demand

/-- From `s`, the step `x` of lowering `fn` does what `d` asks, if that can be done at all. What it
calls unsupported is the first construct outside the subset. -/
structure Meets (fn : FunctionId) (s : Lowered) {α : Type} (x : Lowering α) (d : Demand) :
    Prop where
  served : ∀ {a t}, x s = .ok a t → d.Served s t
  accepts : d.Granted → d.HasRoom s → ∃ a t, x s = .ok a t
  refuses : ∀ {id c t}, x s = .error (.unsupported id c) t →
    id = fn ∧ d.outside.head? = some c

namespace Meets

variable {fn : FunctionId} {s : Lowered} {α β : Type} {x : Lowering α} {f : α → Lowering β}
  {d e : Demand}

theorem bind (hx : Meets fn s x d)
    (hf : ∀ a t, x s = .ok a t → d.Served s t → Meets fn t (f a) e) :
    Meets fn s (x >>= f) (d ++ e) where
  served h := by
    obtain ⟨a, t, hxs, hft⟩ := bind_eq_ok.mp h
    have hd := hx.served hxs
    exact hd.trans ((hf a t hxs hd).served hft)
  accepts hg hr := by
    obtain ⟨hgd, hge⟩ := Demand.granted_append.mp hg
    obtain ⟨a, t, hxs⟩ := hx.accepts hgd hr.left
    have hd := hx.served hxs
    obtain ⟨b, r, hft⟩ := (hf a t hxs hd).accepts hge (hr.right hd)
    exact ⟨b, r, bind_eq_ok.mpr ⟨a, t, hxs, hft⟩⟩
  refuses h := by
    rcases bind_eq_error.mp h with hxs | ⟨a, t, hxs, hft⟩
    · obtain ⟨hid, hc⟩ := hx.refuses hxs
      exact ⟨hid, by simp [hc]⟩
    · have hd := hx.served hxs
      obtain ⟨hid, hc⟩ := (hf a t hxs hd).refuses hft
      exact ⟨hid, by simp [hd.granted.outside, hc]⟩

/-- The second step does not look at the result of the first. -/
theorem seq {y : Lowering β} (hx : Meets fn s x d) (hy : ∀ t : Lowered, t.Fits → Meets fn t y e) :
    Meets fn s (x >>= fun _ => y) (d ++ e) :=
  hx.bind fun _ t _ hd => hy t hd.fits

theorem codeSize_bind {g : Nat → Lowering β} (h : Meets fn s (g s.unit.size) d) :
    Meets fn s (Lowering.codeSize >>= g) d :=
  ⟨h.served, h.accepts, h.refuses⟩

/-- A step that does not fail. -/
theorem of_ok {a : α} {t : Lowered} (h : x s = .ok a t) (hd : d.Served s t) : Meets fn s x d where
  served h' := by
    rw [h] at h'
    cases h'
    exact hd
  accepts _ _ := ⟨a, t, h⟩
  refuses h' := by
    rw [h] at h'
    cases h'

/-- A step that fails, for a reason other than an unsupported construct. -/
theorem of_error {e : Refusal} {t : Lowered} (h : x s = .error e t)
    (he : ∀ id c, e ≠ .unsupported id c) (hd : d.Granted → ¬ d.HasRoom s) : Meets fn s x d where
  served h' := by
    rw [h] at h'
    cases h'
  accepts hg hr := absurd hr (hd hg)
  refuses h' := by
    rw [h] at h'
    cases h'
    exact absurd rfl (he _ _)

theorem refuse {c : Construct} (hd : d.outside.head? = some c) :
    Meets fn s (Lowering.refuse fn c) d where
  served h := by cases h
  accepts hg _ := by simp [hg.outside] at hd
  refuses h := by
    cases h
    exact ⟨rfl, hd⟩

end Meets

section Steps

variable {fn : FunctionId} {s : Lowered}

theorem pure_meets (hs : s.Fits) : Meets fn s (pure ()) {} :=
  .of_ok rfl (.of_code hs rfl rfl rfl rfl)

theorem emit_meets (hs : s.Fits) (i : Instr) : Meets fn s (emit i) { size := i.size } := by
  refine .of_ok rfl (.of_code hs rfl rfl rfl ?_)
  simp [CodeUnit.size, ← Array.length_toList, i.length_encode]

theorem tagLocal_meets (hs : s.Fits) (slot : UInt16) (name : String) :
    Meets fn s (build (.tagLocal slot name)) {} :=
  .of_ok rfl (.of_code hs rfl rfl rfl rfl)

theorem tagGlobal_meets (hs : s.Fits) (slot : UInt16) (name : String) :
    Meets fn s (build (.tagGlobal slot name)) {} :=
  .of_ok rfl (.of_code hs rfl rfl rfl rfl)

theorem register_meets (hs : s.Fits) (nested : FunctionDef) : Meets fn s (register nested) {} :=
  .of_ok rfl (.of_code hs rfl rfl rfl rfl)

/-- A pool takes in what it does not have, and fails just when that is one entry too many. -/
theorem intern_cases {α : Type} [DecidableEq α] [BEq α] [LawfulBEq α] (pool : Array α) (a : α) :
    (∃ i pool', intern pool a = some (i, pool') ∧ pool'.toList = collect pool.toList [a]) ∨
      intern pool a = none ∧ UInt16.size < (collect pool.toList [a]).length := by
  unfold intern
  cases hk : pool.findIdx? (· == a) with
  | some k =>
    obtain ⟨hlt, hka, -⟩ := Array.findIdx?_eq_some_iff_getElem.mp hk
    have hmem : a ∈ pool.toList := by
      rw [← eq_of_beq hka]
      exact Array.getElem_mem_toList hlt
    exact .inl ⟨_, pool, rfl, by simp [hmem]⟩
  | none =>
    have hmem : a ∉ pool.toList := by
      intro h
      have := Array.findIdx?_eq_none_iff.mp hk a (Array.mem_toList_iff.mp h)
      simp at this
    by_cases hsize : pool.size < UInt16.size
    · exact .inl ⟨UInt16.ofNat pool.size, pool.push a, by simp [hsize], by simp [hmem]⟩
    · refine .inr ⟨by simp [hsize], ?_⟩
      simp [hmem]
      omega

/-- Interning does what is asked as long as the pool it is asked of has room. -/
theorem internIn_meets {α : Type} [DecidableEq α] [BEq α] [LawfulBEq α] {pool : PoolField α} {a : α}
    {d : Demand} (hfull : ∀ id c, pool.full ≠ .unsupported id c)
    (hsize : (pool.read s.unit).size ≤ UInt16.size)
    (hserved : ∀ entries, entries.toList = collect (pool.read s.unit).toList [a] →
      entries.size ≤ UInt16.size → d.Served s ⟨pool.write s.unit entries, s.functions⟩)
    (hroom : d.HasRoom s → (collect (pool.read s.unit).toList [a]).length ≤ UInt16.size) :
    Meets fn s (build (.internIn pool a)) d := by
  rcases intern_cases (pool.read s.unit) a with ⟨i, entries, hi, hentries⟩ | ⟨hi, htoo⟩
  · have hok : build (.internIn pool a) s = .ok i ⟨pool.write s.unit entries, s.functions⟩ :=
      build_eq_ok.mpr ⟨_, Build.internIn_of_some hi, rfl⟩
    exact .of_ok hok (hserved entries hentries (intern_spec hsize hi).2.2)
  · have hno : build (.internIn pool a) s = .error pool.full s :=
      build_eq_error.mpr ⟨_, Build.internIn_of_none hi, rfl⟩
    exact .of_error hno hfull fun _ hr => Nat.not_le_of_lt htoo (hroom hr)

theorem internConstant_meets (hs : s.Fits) (v : Value) :
    Meets fn s (build (.internConstant v)) { literals := [v] } :=
  internIn_meets nofun hs.constants (fun _ hentries hfits =>
    ⟨⟨rfl, by simp, by simp⟩, ⟨hfits, hs.names, hs.functions⟩, hentries, rfl, rfl, rfl⟩)
    fun hr => hr.constants

theorem internName_meets (hs : s.Fits) (name : String) :
    Meets fn s (build (.internName name)) { names := [name] } :=
  internIn_meets nofun hs.names (fun _ hentries hfits =>
    ⟨⟨rfl, by simp, by simp⟩, ⟨hs.constants, hfits, hs.functions⟩, rfl, hentries, rfl, rfl⟩)
    fun hr => hr.names

theorem internFunction_meets (hs : s.Fits) (id : FunctionId) :
    Meets fn s (build (.internFunction id)) { functions := [id] } :=
  internIn_meets nofun hs.functions (fun _ hentries hfits =>
    ⟨⟨rfl, by simp, by simp⟩, ⟨hs.constants, hs.names, hfits⟩, rfl, rfl, hentries, rfl⟩)
    fun hr => hr.functions

theorem isSome_jumpOperand? (d : Int) :
    (jumpOperand? d).isSome ↔ -32768 ≤ d ∧ d ≤ 32767 := by
  have hmin : Int16.minValue.toInt = -32768 := by decide
  have hmax : Int16.maxValue.toInt = 32767 := by decide
  rw [jumpOperand?, hmin, hmax, Option.isSome_ite]

/-- The jump back of a loop whose head is `start`: it leads over nine bytes besides the body. -/
theorem jumpBack_meets (hs : s.Fits) {start n : Nat} (hn : s.unit.size = start + 6 + n) :
    Meets fn s (build (.jumpBack start)) { loopSizes := [n], size := 3 } := by
  have hfit := isSome_jumpOperand? (start - (s.unit.code.size + 3))
  change s.unit.code.size = _ at hn
  cases hd : jumpOperand? (start - (s.unit.code.size + 3)) with
  | some d =>
    have hle : n ≤ 32759 := by
      have := hfit.mp (by simp [hd])
      omega
    have hok : build (.jumpBack start) s =
        .ok () ⟨{ s.unit with code := s.unit.code ++ (Instr.jump d).encode }, s.functions⟩ :=
      build_eq_ok.mpr ⟨_, by simp [Build.jumpBack, hd], rfl⟩
    refine .of_ok hok ⟨⟨rfl, by simp, by simpa⟩, ⟨hs.constants, hs.names, hs.functions⟩, rfl, rfl,
      rfl, ?_⟩
    simp [CodeUnit.size, ← Array.length_toList, Instr.length_encode]
    rfl
  | none =>
    have hno : build (.jumpBack start) s = .error .jumpTooFar s :=
      build_eq_error.mpr ⟨_, by simp [Build.jumpBack, hd], rfl⟩
    refine .of_error hno (by simp) fun hg _ => ?_
    have hle : n ≤ 32759 := hg.loopSizes n (by simp)
    have := hfit.mpr (by omega)
    simp [hd] at this

/-- Where the jump back fits, so does the way out, which is shorter. -/
theorem closeJump_meets (hs : s.Fits) {label : Label} {n : Nat}
    (hn : s.unit.size = label.offset + 8 + n) (hle : n ≤ 32759) :
    Meets fn s (build (.closeJump label)) {} := by
  have hfit := isSome_jumpOperand? (s.unit.code.size - (label.offset + 2))
  change s.unit.code.size = _ at hn
  obtain ⟨d, hd⟩ := Option.isSome_iff_exists.mp (hfit.mpr (by omega))
  have hok : build (.closeJump label) s =
      .ok () ⟨{ s.unit with
        code := (s.unit.code.setIfInBounds label.offset (d.toUInt16 >>> 8).toUInt8).setIfInBounds
          (label.offset + 1) d.toUInt16.toUInt8 }, s.functions⟩ :=
    build_eq_ok.mpr ⟨_, by simp [Build.closeJump, hd], rfl⟩
  refine .of_ok hok (.of_code hs rfl rfl rfl ?_)
  simp [CodeUnit.size]

end Steps

section Syntax

variable {fn : FunctionId} {s : Lowered}

theorem Ident.lowerLoad_meets (hs : s.Fits) (x : Ident) : Meets fn s x.lowerLoad x.loadDemand := by
  cases x with
  | localVar name slot =>
    exact (tagLocal_meets hs slot name).seq fun t ht => emit_meets ht (.loadLocal slot)
  | globalVar name slot =>
    exact (tagGlobal_meets hs slot name).seq fun t ht => emit_meets ht (.loadGlobal slot)
  | universal name =>
    exact .bind (e := { size := 3 }) (internName_meets hs name) fun i t _ hd =>
      emit_meets hd.fits (.loadUniversal i)

theorem Ident.lowerStore_meets (hs : s.Fits) (x : Ident) :
    Meets fn s (x.lowerStore fn) x.storeDemand := by
  cases x with
  | localVar name slot =>
    exact (tagLocal_meets hs slot name).seq fun t ht => emit_meets ht (.storeLocal slot)
  | globalVar name slot =>
    exact (tagGlobal_meets hs slot name).seq fun t ht => emit_meets ht (.storeGlobal slot)
  | universal name => exact .refuse rfl

theorem pushPooled_meets (hs : s.Fits) (v : Value) :
    Meets fn s (do let i ← build (.internConstant v); emit (.pushConstant i)) v.pooledDemand :=
  .bind (e := { size := 3 }) (internConstant_meets hs v) fun i _ _ hd =>
    emit_meets hd.fits (.pushConstant i)

theorem lowerInt_meets (hs : s.Fits) (n : Int64) :
    Meets fn s (lowerInt n) (Expr.int n).demand := by
  rw [Expr.demand]
  unfold lowerInt
  split
  · exact emit_meets hs (.pushSmall n.toInt8)
  · exact pushPooled_meets hs (.int n)

/-- A call of too many arguments is refused before any of it is lowered. -/
theorem argCount_meets {x : Lowering Unit} {d : Demand} (n : Nat) (hx : Meets fn s x d) :
    Meets fn s (if n ≤ 255 then x else throw (.tooManyArguments n))
      ({ argCounts := [n] } ++ d) := by
  split
  · rename_i hn
    have hone : ({ argCounts := [n] } : Demand).Granted := ⟨rfl, by simpa, by simp⟩
    exact
      { served := fun h => by
          have hd := hx.served h
          exact
            { granted := Demand.granted_append.mpr ⟨hone, hd.granted⟩
              fits := hd.fits
              constants := hd.constants
              names := hd.names
              functions := hd.functions
              size := by simp [hd.size] }
        accepts := fun hg hr => hx.accepts (Demand.granted_append.mp hg).2 ⟨hr.1, hr.2, hr.3⟩
        refuses := fun h => hx.refuses h }
  · rename_i hn
    exact .of_error rfl (by simp) fun hg _ => hn (hg.argCounts n (by simp))

mutual

theorem Expr.lower_meets : ∀ (e : Expr) {s : Lowered}, s.Fits → Meets fn s (e.lower fn) e.demand
  | .ident x, s, hs => by
    rw [Expr.lower, Expr.demand]
    exact x.lowerLoad_meets hs
  | .int n, s, hs => by
    rw [Expr.lower]
    exact lowerInt_meets hs n
  | .str v, s, hs => by
    rw [Expr.lower, Expr.demand]
    exact pushPooled_meets hs (.str v)
  | .binary op l r, s, hs => by
    cases op with
    | add =>
      rw [Expr.lower, Expr.demand]
      exact (l.lower_meets hs).seq fun t ht => (r.lower_meets ht).seq fun t ht => emit_meets ht .add
    | sub | mul | eq | lt =>
      simp only [Expr.lower, Expr.demand]
      exact .refuse rfl
  | .call f args, s, hs => by
    rw [Expr.lower, Expr.demand]
    apply argCount_meets
    exact (f.lower_meets hs).seq fun t ht => (lowerArgs_meets args ht).seq fun t ht =>
      emit_meets ht (.call (UInt8.ofNat args.length))
  | .list items, s, hs => by
    rw [Expr.lower, Expr.demand]
    exact .refuse rfl

theorem lowerArgs_meets : ∀ (args : List Arg) {s : Lowered}, s.Fits →
    Meets fn s (lowerArgs fn args) (argsDemand args)
  | [], s, hs => by
    rw [lowerArgs, argsDemand]
    exact pure_meets hs
  | .positional e :: rest, s, hs => by
    rw [lowerArgs, argsDemand]
    exact (e.lower_meets hs).seq fun t ht => lowerArgs_meets rest ht
  | .keyword name e :: rest, s, hs => by
    rw [lowerArgs, argsDemand]
    exact .refuse rfl

end

theorem lowerDefine_meets (hs : s.Fits) (target : Ident) (nested : FunctionDef) :
    Meets fn s (lowerDefine fn target nested) (Stmt.define target nested).demand := by
  rw [← Demand.empty_append (Stmt.demand _), Stmt.demand]
  exact (register_meets hs nested).seq fun t ht =>
    (internFunction_meets ht nested.id).bind fun i t _ hd =>
      (emit_meets hd.fits (.makeFunction i)).seq fun t ht => target.lowerStore_meets ht

/-- The code of a loop from its head on. -/
theorem loop_meets (hs : s.Fits) (target : Ident) {body : Lowering Unit} {d : Demand}
    (hbody : ∀ t : Lowered, t.Fits → Meets fn t body d) :
    Meets fn s (do
        let start ← Lowering.codeSize
        let exit ← build (.openJump .forIter)
        target.lowerStore fn
        body
        build (.jumpBack start)
        build (.closeJump exit))
      ({ size := 3 } ++ (target.storeDemand ++ (d ++ { loopSizes := [d.size], size := 3 }))) := by
  have hstore : target.storeDemand.Granted → target.storeDemand.size = 3 := by
    intro hg
    cases target with
    | localVar _ _ | globalVar _ _ => rfl
    | universal name => cases hg.outside
  have hopen : Meets fn s (build (.openJump .forIter)) { size := 3 } := by
    refine .of_ok rfl (.of_code hs rfl rfl rfl ?_)
    simp [CodeUnit.size, ← Array.length_toList]
  apply Meets.codeSize_bind
  apply hopen.bind
  intro exit t₁ hexit h₁
  apply (target.lowerStore_meets h₁.fits).bind
  intro _ t₂ _ h₂
  apply (hbody t₂ h₂.fits).bind
  intro _ t₃ _ h₃
  have hsize : t₃.unit.size = s.unit.size + 6 + d.size := by
    have := h₁.size
    have := h₂.size
    have := h₃.size
    have := hstore h₂.granted
    simp only at *
    omega
  have hlabel : exit.offset = s.unit.size + 1 := by
    cases hexit
    rfl
  refine .bind (e := {}) (jumpBack_meets h₃.fits hsize) fun _ t₄ _ h₄ => ?_
  have hle : d.size ≤ 32759 := h₄.granted.loopSizes d.size (by simp)
  have hback : t₄.unit.size = exit.offset + 8 + d.size := by
    have := h₄.size
    simp only at this
    omega
  exact closeJump_meets h₄.fits hback hle

mutual

theorem Stmt.lower_meets : ∀ (st : Stmt) {s : Lowered}, s.Fits →
    Meets fn s (st.lower fn) st.demand
  | .ret none, s, hs => by
    rw [Stmt.lower, Stmt.demand]
    exact (emit_meets hs .pushNone).seq fun t ht => emit_meets ht .ret
  | .ret (some e), s, hs => by
    rw [Stmt.lower, Stmt.demand]
    exact (e.lower_meets hs).seq fun t ht => emit_meets ht .ret
  | .eval e, s, hs => by
    rw [Stmt.lower, Stmt.demand]
    exact (e.lower_meets hs).seq fun t ht => emit_meets ht .pop
  | .define target nested, s, hs => by
    rw [Stmt.lower]
    exact lowerDefine_meets hs target nested
  | .forEach target collection body, s, hs => by
    cases target with
    | ident x =>
      rw [Stmt.lower, Stmt.demand]
      exact (collection.lower_meets hs).seq fun t ht => (emit_meets ht .getIter).seq fun t ht =>
        loop_meets ht x fun t ht => lowerBlock_meets body ht
    | int _ | str _ | binary _ _ _ | call _ _ | list _ =>
      simp only [Stmt.lower, Stmt.demand]
      exact .refuse rfl
  | .branch _ _ _, s, hs => by
    rw [Stmt.lower, Stmt.demand]
    exact .refuse rfl
  | .assign _ _, s, hs => by
    rw [Stmt.lower, Stmt.demand]
    exact .refuse rfl
  | .pass, s, hs => by
    rw [Stmt.lower, Stmt.demand]
    exact .refuse rfl

theorem lowerBlock_meets : ∀ (body : List Stmt) {s : Lowered}, s.Fits →
    Meets fn s (lowerBlock fn body) (blockDemand body)
  | [], s, hs => by
    rw [lowerBlock, blockDemand]
    exact pure_meets hs
  | st :: rest, s, hs => by
    rw [lowerBlock, blockDemand]
    exact (st.lower_meets hs).seq fun t ht => lowerBlock_meets rest ht

end

end Syntax

/-- All of lowering as one step: after the body comes the return that it may lack. -/
def FunctionDef.lowering (fn : FunctionDef) : Lowering Unit := do
  lowerBlock fn.id fn.body
  emit .pushNone
  emit .ret

theorem FunctionDef.lower_eq_ok_iff {fn : FunctionDef} {p : Lowered} :
    fn.lower = .ok p ↔ fn.lowering { unit := fn.blankUnit } = .ok () p := by
  unfold FunctionDef.lower FunctionDef.lowering
  simp only
  split <;> simp_all

theorem FunctionDef.lower_eq_error_iff {fn : FunctionDef} {e : Refusal} :
    fn.lower = .error e ↔ ∃ t, fn.lowering { unit := fn.blankUnit } = .error e t := by
  unfold FunctionDef.lower FunctionDef.lowering
  simp only
  split <;> simp_all

theorem FunctionDef.lowering_meets (fn : FunctionDef) :
    Meets fn.id { unit := fn.blankUnit } fn.lowering (fn.demand ++ { size := 2 }) := by
  have hs : ({ unit := fn.blankUnit } : Lowered).Fits :=
    ⟨Nat.zero_le _, Nat.zero_le _, Nat.zero_le _⟩
  apply (lowerBlock_meets fn.body hs).seq
  intro t ht
  exact .seq (d := { size := 1 }) (emit_meets ht .pushNone) fun _ ht => emit_meets ht .ret

/-- Nothing is in the pools before the first instruction. -/
theorem FunctionDef.hasRoom_blank_iff (fn : FunctionDef) (d : Demand) :
    d.HasRoom { unit := fn.blankUnit } ↔
      d.literals.toFinset.card ≤ 65536 ∧ d.names.toFinset.card ≤ 65536 ∧
        d.functions.toFinset.card ≤ 65536 := by
  simp only [← length_collect_nil]
  constructor
  · rintro ⟨hc, hn, hf⟩
    exact ⟨hc, hn, hf⟩
  · rintro ⟨hc, hn, hf⟩
    exact ⟨hc, hn, hf⟩

theorem FunctionDef.lower_ok_iff (fn : FunctionDef) :
    (∃ p, fn.lower = .ok p) ↔
      fn.demand.Granted ∧ fn.demand.HasRoom { unit := fn.blankUnit } := by
  constructor
  · rintro ⟨p, hp⟩
    have hd := fn.lowering_meets.served (lower_eq_ok_iff.mp hp)
    exact ⟨(Demand.granted_append.mp hd.granted).1, hd.hasRoom.left⟩
  · rintro ⟨hg, hr⟩
    have hend : ({ size := 2 } : Demand).Granted := ⟨rfl, by simp, by simp⟩
    have hroom : (fn.demand ++ { size := 2 }).HasRoom { unit := fn.blankUnit } := by
      simpa [hasRoom_blank_iff] using hr
    obtain ⟨_, p, hp⟩ :=
      fn.lowering_meets.accepts (Demand.granted_append.mpr ⟨hg, hend⟩) hroom
    exact ⟨p, lower_eq_ok_iff.mpr hp⟩

/-- A function is lowered if and only if its body stays in the subset, no call has more than 255
arguments, no loop body is longer than the jump back over it allows, and no pool takes in more
entries than a word has values. What is called unsupported is the first construct outside the
subset. -/
theorem lower_accepts_iff (fn : FunctionDef) :
    ((∃ p, fn.lower = .ok p) ↔
      fn.InSubset ∧ (∀ n ∈ fn.demand.argCounts, n ≤ 255) ∧
        (∀ n ∈ fn.demand.loopSizes, n ≤ 32759) ∧
        fn.demand.literals.toFinset.card ≤ 65536 ∧ fn.demand.names.toFinset.card ≤ 65536 ∧
        fn.demand.functions.toFinset.card ≤ 65536) ∧
    (∀ p, fn.lower = .ok p → p.unit.size = fn.demand.size + 2) ∧
    ∀ id c, fn.lower = .error (.unsupported id c) →
      ¬ fn.InSubset ∧ id = fn.id ∧ fn.demand.outside.head? = some c := by
  have hsubset : fn.demand.outside = [] ↔ fn.InSubset := blockOutside_eq_nil_iff fn.body
  refine ⟨?_, ?_, ?_⟩
  · rw [fn.lower_ok_iff, Demand.granted_iff, fn.hasRoom_blank_iff, hsubset, and_assoc, and_assoc]
  · intro p hp
    have hd := fn.lowering_meets.served (FunctionDef.lower_eq_ok_iff.mp hp)
    have hblank : fn.blankUnit.size = 0 := rfl
    rw [hd.size, hblank, Nat.zero_add, Demand.size_append]
  · intro id c hc
    obtain ⟨t, ht⟩ := FunctionDef.lower_eq_error_iff.mp hc
    obtain ⟨hid, hhead⟩ := fn.lowering_meets.refuses ht
    rw [Demand.outside_append, List.append_nil] at hhead
    refine ⟨?_, hid, hhead⟩
    rw [← hsubset]
    intro hnil
    simp [hnil] at hhead

end Tiered
