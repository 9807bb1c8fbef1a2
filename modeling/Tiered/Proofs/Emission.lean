import Tiered.Proofs.Pools

/-! Lowering emits code of the right shape: it appends the instructions of what it lowers to the
code, and whatever a unit takes in afterwards leaves them valid. -/
namespace Tiered
open Lowering

theorem bind_eq_ok {ε σ α β : Type} {x : EStateM ε σ α} {f : α → EStateM ε σ β} {s r : σ} {b : β} :
    (x >>= f) s = .ok b r ↔ ∃ a t, x s = .ok a t ∧ f a t = .ok b r := by
  change EStateM.bind x f s = _ ↔ _
  unfold EStateM.bind
  cases x s with
  | ok a t =>
    constructor
    · intro h
      exact ⟨a, t, rfl, h⟩
    · rintro ⟨_, _, he, h⟩
      cases he
      exact h
  | error e t => simp

theorem bind_eq_error {ε σ α β : Type} {x : EStateM ε σ α} {f : α → EStateM ε σ β} {s r : σ}
    {e : ε} :
    (x >>= f) s = .error e r ↔ x s = .error e r ∨ ∃ a t, x s = .ok a t ∧ f a t = .error e r := by
  change EStateM.bind x f s = _ ↔ _
  unfold EStateM.bind
  cases x s with
  | ok a t =>
    constructor
    · intro h
      exact .inr ⟨a, t, rfl, h⟩
    · rintro (he | ⟨_, _, he, h⟩)
      · cases he
      · cases he
        exact h
  | error e' t => simp

theorem Lowering.build_eq_ok {α : Type} {step : Build α} {s t : Lowered} {a : α} :
    build step s = .ok a t ↔ ∃ u, step s.unit = .ok a u ∧ t = ⟨u, s.functions⟩ := by
  unfold build
  cases h : step s.unit with
  | ok b u =>
    simp only [h, EStateM.Result.ok.injEq]
    constructor
    · rintro ⟨rfl, rfl⟩
      exact ⟨u, ⟨rfl, rfl⟩, rfl⟩
    · rintro ⟨_, ⟨rfl, rfl⟩, rfl⟩
      exact ⟨rfl, rfl⟩
  | error e u => simp [h]

theorem Lowering.build_eq_error {α : Type} {step : Build α} {s t : Lowered} {e : Refusal} :
    build step s = .error e t ↔ ∃ u, step s.unit = .error e u ∧ t = ⟨u, s.functions⟩ := by
  unfold build
  cases h : step s.unit with
  | ok b u => simp [h]
  | error e' u =>
    simp only [h, EStateM.Result.error.injEq]
    constructor
    · rintro ⟨rfl, rfl⟩
      exact ⟨u, ⟨rfl, rfl⟩, rfl⟩
    · rintro ⟨_, ⟨rfl, rfl⟩, rfl⟩
      exact ⟨rfl, rfl⟩

/-- The step from `s` to `t` appends the instructions `is`; on the way it meets the identifiers `xs`
and the definitions `fs`. -/
structure Emits (s t : Lowered) (is : List Instr) (xs : List Ident) (fs : List FunctionDef) :
    Prop where
  code : t.unit.code.toList = s.unit.code.toList ++ encodeAll is
  localCount : t.unit.localCount = s.unit.localCount
  grows : s.Extends t
  fits : t.Fits
  localNames : t.unit.localNames = tagAll s.unit.localNames (xs.filterMap Ident.localUse?)
  globalNames : t.unit.globalNames = tagAll s.unit.globalNames (xs.filterMap Ident.globalUse?)
  table : t.functions = s.functions.registerAll fs

namespace Emits

variable {s t r : Lowered} {is js : List Instr} {xs ys : List Ident} {fs gs : List FunctionDef}

theorem refl (hs : s.Fits) : Emits s s [] [] [] where
  code := by simp
  localCount := rfl
  grows := .refl s
  fits := hs
  localNames := rfl
  globalNames := rfl
  table := rfl

theorem trans (h : Emits s t is xs fs) (k : Emits t r js ys gs) :
    Emits s r (is ++ js) (xs ++ ys) (fs ++ gs) where
  code := by rw [k.code, h.code, encodeAll_append, List.append_assoc]
  localCount := k.localCount.trans h.localCount
  grows := h.grows.trans k.grows
  fits := k.fits
  localNames := by rw [k.localNames, h.localNames, List.filterMap_append, tagAll_append]
  globalNames := by rw [k.globalNames, h.globalNames, List.filterMap_append, tagAll_append]
  table := by rw [k.table, h.table, NestedDefs.registerAll_append]

theorem size (h : Emits s t is xs fs) : t.unit.size = s.unit.size + codeSize is := by
  have hl := congrArg List.length h.code
  simpa [CodeUnit.size] using hl

end Emits

private theorem emits_of_unit {s : Lowered} {u : CodeUnit} {is : List Instr} {xs : List Ident}
    (hs : s.Fits) (hcode : u.code.toList = s.unit.code.toList ++ encodeAll is)
    (hcount : u.localCount = s.unit.localCount) (hconstants : u.constants = s.unit.constants)
    (hnames : u.names = s.unit.names) (hfunctions : u.functions = s.unit.functions)
    (hlocal : u.localNames = tagAll s.unit.localNames (xs.filterMap Ident.localUse?))
    (hglobal : u.globalNames = tagAll s.unit.globalNames (xs.filterMap Ident.globalUse?)) :
    Emits s ⟨u, s.functions⟩ is xs [] where
  code := hcode
  localCount := hcount
  grows :=
    { constants := by simp [hconstants]
      names := by simp [hnames]
      functions := by simp [hfunctions]
      table := fun _ _ h => h }
  fits := ⟨hconstants ▸ hs.constants, hnames ▸ hs.names, hfunctions ▸ hs.functions⟩
  localNames := hlocal
  globalNames := hglobal
  table := rfl

theorem emits_emit {s t : Lowered} {i : Instr} (hs : s.Fits) (h : emit i s = .ok () t) :
    Emits s t [i] [] [] := by
  cases h
  exact emits_of_unit hs (by simp) rfl rfl rfl rfl rfl rfl

theorem emits_tagLocal {s t : Lowered} {name : String} {slot : UInt16} (hs : s.Fits)
    (h : build (.tagLocal slot name) s = .ok () t) : Emits s t [] [.localVar name slot] [] := by
  cases h
  exact emits_of_unit hs (by simp) rfl rfl rfl rfl rfl rfl

theorem emits_tagGlobal {s t : Lowered} {name : String} {slot : UInt16} (hs : s.Fits)
    (h : build (.tagGlobal slot name) s = .ok () t) : Emits s t [] [.globalVar name slot] [] := by
  cases h
  exact emits_of_unit hs (by simp) rfl rfl rfl rfl rfl rfl

/-- Interning emits nothing, and what it interns is in the pool at the index it gives. -/
theorem emits_internIn {α : Type} [BEq α] [LawfulBEq α] {pool : PoolField α} {s t : Lowered} {a : α}
    {i : UInt16} (hsize : (pool.read s.unit).size ≤ UInt16.size)
    (hgrown : ∀ entries, (pool.read s.unit).toList <+: entries.toList →
      entries.size ≤ UInt16.size → s.Extends ⟨pool.write s.unit entries, s.functions⟩ ∧
        Lowered.Fits ⟨pool.write s.unit entries, s.functions⟩)
    (h : build (.internIn pool a) s = .ok i t) :
    Emits s t [] [] [] ∧ (pool.read t.unit)[i.toNat]? = some a ∧ t.functions = s.functions := by
  obtain ⟨u, hu, rfl⟩ := build_eq_ok.mp h
  cases hp : intern (pool.read s.unit) a with
  | none =>
    rw [Build.internIn_of_none hp] at hu
    cases hu
  | some entry =>
    rw [Build.internIn_of_some hp] at hu
    cases hu
    obtain ⟨hpre, hat, hfits⟩ := intern_spec hsize hp
    obtain ⟨hextends, hfit⟩ := hgrown entry.2 hpre hfits
    obtain ⟨-, -, hcount, hcode, -, -, -, hlocal, hglobal⟩ :=
      CodeUnit.mk.inj (pool.frame s.unit entry.2)
    refine ⟨?_, by rw [pool.read_write, hat], rfl⟩
    exact
      { code := by simp [hcode]
        localCount := hcount
        grows := hextends
        fits := hfit
        localNames := hlocal
        globalNames := hglobal
        table := rfl }

theorem emits_internConstant {s t : Lowered} {v : Value} {i : UInt16} (hs : s.Fits)
    (h : build (.internConstant v) s = .ok i t) :
    Emits s t [] [] [] ∧ t.unit.constantAt? i = some v := by
  obtain ⟨he, hat, -⟩ := emits_internIn hs.constants (fun _ hpre hfits =>
    ⟨⟨hpre, List.prefix_rfl, List.prefix_rfl, fun _ _ h => h⟩, hfits, hs.names, hs.functions⟩) h
  exact ⟨he, hat⟩

theorem emits_internName {s t : Lowered} {name : String} {i : UInt16} (hs : s.Fits)
    (h : build (.internName name) s = .ok i t) :
    Emits s t [] [] [] ∧ t.unit.nameAt? i = some name := by
  obtain ⟨he, hat, -⟩ := emits_internIn hs.names (fun _ hpre hfits =>
    ⟨⟨List.prefix_rfl, hpre, List.prefix_rfl, fun _ _ h => h⟩, hs.constants, hfits, hs.functions⟩) h
  exact ⟨he, hat⟩

theorem emits_internFunction {s t : Lowered} {id : FunctionId} {i : UInt16} (hs : s.Fits)
    (h : build (.internFunction id) s = .ok i t) :
    Emits s t [] [] [] ∧ t.unit.functionAt? i = some id ∧ t.functions = s.functions :=
  emits_internIn hs.functions (fun _ hpre hfits =>
    ⟨⟨List.prefix_rfl, List.prefix_rfl, hpre, fun _ _ h => h⟩, hs.constants, hs.names, hfits⟩) h

theorem emits_register {s t : Lowered} {fn : FunctionDef} (hs : s.Fits)
    (h : register fn s = .ok () t) :
    Emits s t [] [] [fn] ∧ (t.functions.get? fn.id).isSome := by
  cases h
  refine ⟨?_, by simp [NestedDefs.get?_register]⟩
  exact
    { code := by simp
      localCount := rfl
      grows :=
        { constants := List.prefix_rfl
          names := List.prefix_rfl
          functions := List.prefix_rfl
          table := fun id g hg => by simp [NestedDefs.get?_register, hg] }
      fits := ⟨hs.constants, hs.names, hs.functions⟩
      localNames := rfl
      globalNames := rfl
      table := rfl }

def openDistance : Int16 := -1

theorem emits_openJump {s t : Lowered} {label : Label} (hs : s.Fits)
    (h : build (.openJump .forIter) s = .ok label t) :
    Emits s t [.forIter openDistance] [] [] ∧ label.offset = s.unit.size + 1 := by
  cases h
  exact ⟨emits_of_unit hs (by simp; rfl) rfl rfl rfl rfl rfl rfl, rfl⟩

theorem toInt_of_jumpOperand? {d : Int} {w : Int16} (h : jumpOperand? d = some w) :
    w.toInt = d := by
  unfold jumpOperand? at h
  split at h
  · rename_i hd
    obtain rfl := Option.some.inj h
    exact Int16.toInt_ofInt_of_le hd.1 (Int.lt_of_le_of_lt hd.2 (by decide))
  · cases h

theorem emits_jumpBack {s t : Lowered} {target : Int} (hs : s.Fits)
    (h : build (.jumpBack target) s = .ok () t) :
    ∃ d : Int16, Emits s t [.jump d] [] [] ∧ d.toInt = target - (s.unit.size + 3) := by
  obtain ⟨u, hu, rfl⟩ := build_eq_ok.mp h
  unfold Build.jumpBack at hu
  split at hu
  · cases hu
  · rename_i d hd
    cases hu
    exact ⟨d, emits_of_unit hs (by simp) rfl rfl rfl rfl rfl rfl, toInt_of_jumpOperand? hd⟩

private theorem set_operand (pre post : List UInt8) (op a b hi lo : UInt8) :
    ((pre ++ op :: a :: b :: post).set (pre.length + 1) hi).set (pre.length + 1 + 1) lo =
      pre ++ op :: hi :: lo :: post := by
  induction pre with
  | nil => rfl
  | cons c pre ih => simp

/-- Closing a loop changes nothing but the operand of its head. -/
theorem Emits.closeLoop {s t r : Lowered} {pre is : List Instr} {d : Int16} {xs : List Ident}
    {fs : List FunctionDef} {label : Label} (e : Emits s t (pre ++ .forIter d :: is) xs fs)
    (hlabel : label.offset = s.unit.size + codeSize pre + 1)
    (h : build (.closeJump label) t = .ok () r) :
    ∃ exit : Int16, exit.toInt = codeSize is ∧ Emits s r (pre ++ .forIter exit :: is) xs fs ∧
      t.Extends r := by
  obtain ⟨u, hu, rfl⟩ := build_eq_ok.mp h
  unfold Build.closeJump at hu
  split at hu
  · cases hu
  · rename_i exit hexit
    cases hu
    have hsize : t.unit.code.size = s.unit.size + codeSize pre + 3 + codeSize is := by
      have hi : (Instr.forIter d).size = 3 := rfl
      have he := e.size
      rw [codeSize_append, codeSize_cons, hi] at he
      change t.unit.size = _
      omega
    have hoffset : label.offset = (s.unit.code.toList ++ encodeAll pre).length + 1 := by
      simp [hlabel, CodeUnit.size]
    have hcode : t.unit.code.toList = (s.unit.code.toList ++ encodeAll pre) ++
        Opcode.forIter.byte :: (d.toUInt16 >>> 8).toUInt8 :: d.toUInt16.toUInt8 ::
          encodeAll is := by
      rw [e.code]
      simp [Instr.encode, Instr.opcode, Instr.immediate, wordBytes]
    have hpools (code : Array UInt8) : t.Extends ⟨{ t.unit with code := code }, t.functions⟩ :=
      ⟨List.prefix_rfl, List.prefix_rfl, List.prefix_rfl, fun _ _ h => h⟩
    refine ⟨exit, ?_, ?_, hpools _⟩
    · rw [toInt_of_jumpOperand? hexit, hsize, hlabel]
      omega
    · refine ⟨?_, e.localCount, e.grows.trans (hpools _), ?_, e.localNames, e.globalNames, e.table⟩
      · rw [Array.toList_setIfInBounds, Array.toList_setIfInBounds, hoffset, hcode, set_operand]
        simp [Instr.encode, Instr.opcode, Instr.immediate, wordBytes]
      · exact ⟨e.fits.constants, e.fits.names, e.fits.functions⟩

theorem Ident.lowerLoad_emits {x : Ident} {s t : Lowered} (hs : s.Fits)
    (h : x.lowerLoad s = .ok () t) :
    ∃ is, Emits s t is [x] [] ∧ ∀ p, t.Extends p → ExprCode p (.ident x) is := by
  cases x with
  | localVar name slot =>
    obtain ⟨_, s₁, h₁, h⟩ := bind_eq_ok.mp h
    have e₁ := emits_tagLocal hs h₁
    exact ⟨_, e₁.trans (emits_emit e₁.fits h), fun p _ => .loadLocal⟩
  | globalVar name slot =>
    obtain ⟨_, s₁, h₁, h⟩ := bind_eq_ok.mp h
    have e₁ := emits_tagGlobal hs h₁
    exact ⟨_, e₁.trans (emits_emit e₁.fits h), fun p _ => .loadGlobal⟩
  | universal name =>
    obtain ⟨i, s₁, h₁, h⟩ := bind_eq_ok.mp h
    obtain ⟨e₁, hi⟩ := emits_internName hs h₁
    have e₂ := emits_emit e₁.fits h
    have e := e₁.trans e₂
    exact ⟨[.loadUniversal i], ⟨e.code, e.localCount, e.grows, e.fits, e.localNames, e.globalNames,
      e.table⟩, fun p hp => .loadUniversal ((e₂.grows.trans hp).nameAt? hi)⟩

theorem Ident.lowerStore_emits {fn : FunctionId} {x : Ident} {s t : Lowered} (hs : s.Fits)
    (h : x.lowerStore fn s = .ok () t) :
    ∃ i, Emits s t [i] [x] [] ∧ x.storeInstr? = some i := by
  cases x with
  | localVar name slot =>
    obtain ⟨_, s₁, h₁, h⟩ := bind_eq_ok.mp h
    have e₁ := emits_tagLocal hs h₁
    exact ⟨_, e₁.trans (emits_emit e₁.fits h), rfl⟩
  | globalVar name slot =>
    obtain ⟨_, s₁, h₁, h⟩ := bind_eq_ok.mp h
    have e₁ := emits_tagGlobal hs h₁
    exact ⟨_, e₁.trans (emits_emit e₁.fits h), rfl⟩
  | universal name => cases h

private theorem toInt64_toInt8 {n : Int64} (h : -128 ≤ n.toInt ∧ n.toInt ≤ 127) :
    n.toInt8.toInt64 = n := by
  apply Int64.toInt_inj.mp
  rw [Int8.toInt_toInt64, Int64.toInt_toInt8]
  exact Int.bmod_eq_of_le (by omega) (by omega)

theorem lowerInt_emits {n : Int64} {s t : Lowered} (hs : s.Fits) (h : lowerInt n s = .ok () t) :
    ∃ is, Emits s t is [] [] ∧ ∀ p, t.Extends p → ExprCode p (.int n) is := by
  unfold lowerInt at h
  split at h
  · rename_i hn
    exact ⟨_, emits_emit hs h, fun p _ => .small (toInt64_toInt8 hn)⟩
  · obtain ⟨i, s₁, h₁, h⟩ := bind_eq_ok.mp h
    obtain ⟨e₁, hi⟩ := emits_internConstant hs h₁
    have e₂ := emits_emit e₁.fits h
    exact ⟨_, e₁.trans e₂, fun p hp => .int ((e₂.grows.trans hp).constantAt? hi)⟩

mutual

theorem Expr.lower_emits (fn : FunctionId) : ∀ (e : Expr) {s t : Lowered}, s.Fits →
    e.lower fn s = .ok () t →
    ∃ is, Emits s t is e.idents [] ∧ ∀ p, t.Extends p → ExprCode p e is
  | .ident x, s, t, hs, h => by
    rw [Expr.lower] at h
    rw [Expr.idents]
    exact x.lowerLoad_emits hs h
  | .int n, s, t, hs, h => by
    rw [Expr.lower] at h
    rw [Expr.idents]
    exact lowerInt_emits hs h
  | .str v, s, t, hs, h => by
    rw [Expr.lower] at h
    rw [Expr.idents]
    obtain ⟨i, s₁, h₁, h⟩ := bind_eq_ok.mp h
    obtain ⟨e₁, hi⟩ := emits_internConstant hs h₁
    have e₂ := emits_emit e₁.fits h
    exact ⟨_, e₁.trans e₂, fun p hp => .str ((e₂.grows.trans hp).constantAt? hi)⟩
  | .binary op l r, s, t, hs, h => by
    cases op with
    | add =>
      rw [Expr.lower] at h
      rw [Expr.idents]
      obtain ⟨_, s₁, h₁, h⟩ := bind_eq_ok.mp h
      obtain ⟨_, s₂, h₂, h⟩ := bind_eq_ok.mp h
      obtain ⟨is, e₁, hl⟩ := l.lower_emits fn hs h₁
      obtain ⟨js, e₂, hr⟩ := r.lower_emits fn e₁.fits h₂
      have e₃ := emits_emit e₂.fits h
      refine ⟨is ++ (js ++ [.add]), ?_, fun p hp => ?_⟩
      · simpa using e₁.trans (e₂.trans e₃)
      · exact .add (hl p (e₂.grows.trans (e₃.grows.trans hp))) (hr p (e₃.grows.trans hp))
    | sub | mul | eq | lt => cases h
  | .call f args, s, t, hs, h => by
    rw [Expr.lower] at h
    rw [Expr.idents]
    split at h
    · rename_i hlen
      obtain ⟨_, s₁, h₁, h⟩ := bind_eq_ok.mp h
      obtain ⟨_, s₂, h₂, h⟩ := bind_eq_ok.mp h
      obtain ⟨is, e₁, hf⟩ := f.lower_emits fn hs h₁
      obtain ⟨js, e₂, ha⟩ := lowerArgs_emits fn args e₁.fits h₂
      have e₃ := emits_emit e₂.fits h
      have hn : (UInt8.ofNat args.length).toNat = args.length :=
        UInt8.toNat_ofNat_of_lt' (show args.length < 2 ^ 8 by omega)
      refine ⟨is ++ (js ++ [.call (UInt8.ofNat args.length)]), ?_, fun p hp => ?_⟩
      · simpa using e₁.trans (e₂.trans e₃)
      · exact .call (hf p (e₂.grows.trans (e₃.grows.trans hp))) (ha p (e₃.grows.trans hp)) hn
    · cases h
  | .list items, s, t, hs, h => by
    rw [Expr.lower] at h
    cases h

theorem lowerArgs_emits (fn : FunctionId) : ∀ (args : List Arg) {s t : Lowered}, s.Fits →
    lowerArgs fn args s = .ok () t →
    ∃ is, Emits s t is (argIdents args) [] ∧ ∀ p, t.Extends p → ArgsCode p args is
  | [], s, t, hs, h => by
    rw [lowerArgs] at h
    cases h
    exact ⟨[], .refl hs, fun p _ => .nil⟩
  | .positional e :: rest, s, t, hs, h => by
    rw [lowerArgs] at h
    rw [argIdents]
    obtain ⟨_, s₁, h₁, h⟩ := bind_eq_ok.mp h
    obtain ⟨is, e₁, he⟩ := e.lower_emits fn hs h₁
    obtain ⟨js, e₂, hr⟩ := lowerArgs_emits fn rest e₁.fits h
    exact ⟨_, e₁.trans e₂, fun p hp => .cons (he p (e₂.grows.trans hp)) (hr p hp)⟩
  | .keyword name e :: rest, s, t, hs, h => by
    rw [lowerArgs] at h
    cases h

end

theorem lowerDefine_emits {fn : FunctionId} {target : Ident} {nested : FunctionDef} {s t : Lowered}
    (hs : s.Fits) (h : lowerDefine fn target nested s = .ok () t) :
    ∃ is, Emits s t is [target] [nested] ∧
      ∀ p, t.Extends p → StmtCode p (.define target nested) is := by
  obtain ⟨_, s₁, h₁, h⟩ := bind_eq_ok.mp h
  obtain ⟨i, s₂, h₂, h⟩ := bind_eq_ok.mp h
  obtain ⟨_, s₃, h₃, h⟩ := bind_eq_ok.mp h
  obtain ⟨e₁, hdef⟩ := emits_register hs h₁
  obtain ⟨e₂, hi, htable⟩ := emits_internFunction e₁.fits h₂
  have e₃ := emits_emit e₂.fits h₃
  obtain ⟨store, e₄, hstore⟩ := target.lowerStore_emits e₃.fits h
  obtain ⟨g, hg⟩ := Option.isSome_iff_exists.mp hdef
  refine ⟨_, e₁.trans (e₂.trans (e₃.trans e₄)), fun p hp => ?_⟩
  have hlate := e₃.grows.trans (e₄.grows.trans hp)
  exact .define (hlate.functionAt? hi)
    (by rw [(e₂.grows.trans hlate).table _ _ hg]; rfl) hstore

/-- A loop, given what lowering its body emits. -/
theorem forEach_emits {fn : FunctionId} {x : Ident} {collection : Expr} {body : List Stmt}
    (hbody : ∀ {s t : Lowered}, s.Fits → lowerBlock fn body s = .ok () t →
      ∃ is, Emits s t is (blockIdents body) (blockDefs body) ∧
        ∀ p, t.Extends p → BlockCode p body is)
    {s t : Lowered} (hs : s.Fits)
    (h : (Stmt.forEach (.ident x) collection body).lower fn s = .ok () t) :
    ∃ is, Emits s t is (Stmt.forEach (.ident x) collection body).idents
        (Stmt.forEach (.ident x) collection body).defs ∧
      ∀ p, t.Extends p → StmtCode p (.forEach (.ident x) collection body) is := by
  rw [Stmt.lower] at h
  obtain ⟨_, s₁, h₁, h⟩ := bind_eq_ok.mp h
  obtain ⟨_, s₂, h₂, h⟩ := bind_eq_ok.mp h
  obtain ⟨start, s₃, h₃, h⟩ := bind_eq_ok.mp h
  cases h₃
  obtain ⟨label, s₄, h₄, h⟩ := bind_eq_ok.mp h
  obtain ⟨_, s₅, h₅, h⟩ := bind_eq_ok.mp h
  obtain ⟨_, s₆, h₆, h⟩ := bind_eq_ok.mp h
  obtain ⟨_, s₇, h₇, h⟩ := bind_eq_ok.mp h
  obtain ⟨is, e₁, hc⟩ := collection.lower_emits fn hs h₁
  have e₂ := emits_emit e₁.fits h₂
  obtain ⟨e₄, hlabel⟩ := emits_openJump e₂.fits h₄
  obtain ⟨store, e₅, hstore⟩ := x.lowerStore_emits e₄.fits h₅
  obtain ⟨js, e₆, hb⟩ := hbody e₅.fits h₆
  obtain ⟨back, e₇, hback⟩ := emits_jumpBack e₆.fits h₇
  have e : Emits s s₇
      ((is ++ [.getIter]) ++ .forIter openDistance :: store :: (js ++ [.jump back]))
      (collection.idents ++ (x :: blockIdents body)) (blockDefs body) := by
    simpa using e₁.trans (e₂.trans (e₄.trans (e₅.trans (e₆.trans e₇))))
  have hat : label.offset = s.unit.size + codeSize (is ++ [.getIter]) + 1 := by
    have := (e₁.trans e₂).size
    omega
  obtain ⟨exit, hexit, eloop, hlast⟩ := e.closeLoop hat h
  refine ⟨_, by simpa [Stmt.idents, Stmt.defs, Expr.idents] using eloop, fun p hp => ?_⟩
  have h₇ := hlast.trans hp
  have h₆ := e₇.grows.trans h₇
  have h₅ := e₆.grows.trans h₆
  have h₁ := e₂.grows.trans (e₄.grows.trans (e₅.grows.trans h₅))
  have hjump : (Instr.jump back).size = 3 := rfl
  refine .forEach (hc p h₁) hstore (hb p h₆) ?_ ?_
  · rw [hexit]
    simp only [codeSize_cons, codeSize_append, codeSize_nil, hjump]
    push_cast
    omega
  · have hiter : (Instr.forIter openDistance).size = 3 := rfl
    have hs₄ := e₄.size
    have hs₅ := e₅.size
    have hs₆ := e₆.size
    simp only [codeSize_cons, codeSize_nil, hiter] at hs₄ hs₅
    rw [hback]
    omega

mutual

theorem Stmt.lower_emits (fn : FunctionId) : ∀ (st : Stmt) {s t : Lowered}, s.Fits →
    st.lower fn s = .ok () t →
    ∃ is, Emits s t is st.idents st.defs ∧ ∀ p, t.Extends p → StmtCode p st is
  | .ret none, s, t, hs, h => by
    rw [Stmt.lower] at h
    obtain ⟨_, s₁, h₁, h⟩ := bind_eq_ok.mp h
    have e₁ := emits_emit hs h₁
    rw [Stmt.idents, Stmt.defs]
    exact ⟨_, e₁.trans (emits_emit e₁.fits h), fun p _ => .retNone⟩
  | .ret (some e), s, t, hs, h => by
    rw [Stmt.lower] at h
    obtain ⟨_, s₁, h₁, h⟩ := bind_eq_ok.mp h
    obtain ⟨is, e₁, he⟩ := e.lower_emits fn hs h₁
    have e₂ := emits_emit e₁.fits h
    rw [Stmt.idents, Stmt.defs]
    refine ⟨_, ?_, fun p hp => .ret (he p (e₂.grows.trans hp))⟩
    simpa using e₁.trans e₂
  | .eval e, s, t, hs, h => by
    rw [Stmt.lower] at h
    obtain ⟨_, s₁, h₁, h⟩ := bind_eq_ok.mp h
    obtain ⟨is, e₁, he⟩ := e.lower_emits fn hs h₁
    have e₂ := emits_emit e₁.fits h
    rw [Stmt.idents, Stmt.defs]
    refine ⟨_, ?_, fun p hp => .eval (he p (e₂.grows.trans hp))⟩
    simpa using e₁.trans e₂
  | .define target nested, s, t, hs, h => by
    rw [Stmt.lower] at h
    rw [Stmt.idents, Stmt.defs]
    exact lowerDefine_emits hs h
  | .forEach target collection body, s, t, hs, h => by
    cases target with
    | ident x => exact forEach_emits (lowerBlock_emits fn body) hs h
    | int _ | str _ | binary _ _ _ | call _ _ | list _ => cases h
  | .branch _ _ _, s, t, hs, h => by
    rw [Stmt.lower] at h
    cases h
  | .assign _ _, s, t, hs, h => by
    rw [Stmt.lower] at h
    cases h
  | .pass, s, t, hs, h => by
    rw [Stmt.lower] at h
    cases h

theorem lowerBlock_emits (fn : FunctionId) : ∀ (body : List Stmt) {s t : Lowered}, s.Fits →
    lowerBlock fn body s = .ok () t →
    ∃ is, Emits s t is (blockIdents body) (blockDefs body) ∧ ∀ p, t.Extends p → BlockCode p body is
  | [], s, t, hs, h => by
    rw [lowerBlock] at h
    cases h
    exact ⟨[], .refl hs, fun p _ => .nil⟩
  | st :: rest, s, t, hs, h => by
    rw [lowerBlock] at h
    obtain ⟨_, s₁, h₁, h⟩ := bind_eq_ok.mp h
    obtain ⟨is, e₁, hst⟩ := st.lower_emits fn hs h₁
    obtain ⟨js, e₂, hr⟩ := lowerBlock_emits fn rest e₁.fits h
    rw [blockIdents, blockDefs]
    exact ⟨_, e₁.trans e₂, fun p hp => .cons (hst p (e₂.grows.trans hp)) (hr p hp)⟩

end

/-- `p` is a unit for `fn`, and `is` is the code of the body: a return of None comes after it. -/
structure Renders (p : Lowered) (fn : FunctionDef) (is : List Instr) : Prop where
  block : BlockCode p fn.body is
  bytes : p.unit.code.toList = encodeAll (is ++ [.pushNone, .ret])
  localCount : p.unit.localCount = fn.localCount
  localNames : p.unit.localNames = tagAll #[] fn.localUses
  globalNames : p.unit.globalNames = tagAll #[] fn.globalUses
  functions : p.functions = NestedDefs.registerAll {} fn.defs

theorem Renders.holds {p : Lowered} {fn : FunctionDef} {is : List Instr} (h : Renders p fn is) :
    p.unit.Holds 0 (is ++ [.pushNone, .ret]) :=
  CodeUnit.holds_of_bytes (show _ = [] ++ encodeAll (is ++ [.pushNone, .ret]) ++ [] by
    rw [h.bytes, List.nil_append, List.append_nil])

theorem Renders.table {p : Lowered} {fn : FunctionDef} {is : List Instr} (h : Renders p fn is) :
    ∀ g ∈ p.functions.entries, g ∈ fn.defs := by
  intro g hg
  rw [h.functions] at hg
  exact (NestedDefs.mem_registerAll hg).resolve_left List.not_mem_nil

theorem FunctionDef.blankUnit_localNames (fn : FunctionDef) :
    fn.blankUnit.localNames = tagAll #[] fn.paramUses := by
  simp [blankUnit, tagAll, paramUses, List.foldl_map]

theorem FunctionDef.lower_renders {fn : FunctionDef} {p : Lowered} (h : fn.lower = .ok p) :
    ∃ is, Renders p fn is := by
  unfold FunctionDef.lower at h
  simp only at h
  split at h
  · rename_i t hrun
    obtain rfl := Except.ok.inj h
    obtain ⟨_, s₁, h₁, hrun⟩ := bind_eq_ok.mp hrun
    obtain ⟨_, s₂, h₂, hrun⟩ := bind_eq_ok.mp hrun
    have hfits : ({ unit := fn.blankUnit } : Lowered).Fits :=
      ⟨Nat.zero_le _, Nat.zero_le _, Nat.zero_le _⟩
    obtain ⟨is, e₁, hb⟩ := lowerBlock_emits fn.id fn.body hfits h₁
    have e₂ := emits_emit e₁.fits h₂
    have e₃ := emits_emit e₂.fits hrun
    have e := e₁.trans (e₂.trans e₃)
    refine ⟨is, ?_⟩
    exact
      { block := hb _ (e₂.grows.trans e₃.grows)
        bytes := by rw [e.code]; rfl
        localCount := e.localCount
        localNames := by
          rw [e.localNames, FunctionDef.blankUnit_localNames, FunctionDef.localUses, tagAll_append]
          simp [FunctionDef.idents]
        globalNames := by
          rw [e.globalNames, FunctionDef.globalUses]
          simp [FunctionDef.idents, FunctionDef.blankUnit]
        functions := by
          have := e.table
          simpa [FunctionDef.defs] using this }
  · cases h

end Tiered
