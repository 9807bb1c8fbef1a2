import Tiered.Demo
import Tiered.Proofs.Acceptance

/-! What the pools of a lowered unit hold: the literals, names and definitions of the body, each
once, in the order the body comes to them. The instructions that index a pool stand in that order
too, each with the index of its own entry. -/
namespace Tiered

section Syntax

inductive PoolEntry where
  | literal (v : Value)
  | name (name : String)
  | function (id : FunctionId)

namespace PoolEntry

def literal? : PoolEntry → Option Value
  | literal v => some v
  | name _ | function _ => none

def name? : PoolEntry → Option String
  | name n => some n
  | literal _ | function _ => none

def function? : PoolEntry → Option FunctionId
  | function id => some id
  | literal _ | name _ => none

@[simp] theorem literal?_eq_some {e : PoolEntry} {v : Value} :
    e.literal? = some v ↔ e = .literal v := by
  cases e <;> simp [literal?]

@[simp] theorem name?_eq_some {e : PoolEntry} {n : String} : e.name? = some n ↔ e = .name n := by
  cases e <;> simp [name?]

@[simp] theorem function?_eq_some {e : PoolEntry} {id : FunctionId} :
    e.function? = some id ↔ e = .function id := by
  cases e <;> simp [function?]

end PoolEntry

/-- Integers of one signed byte need no pool. -/
def FitsByte (n : Int64) : Prop :=
  -128 ≤ n.toInt ∧ n.toInt ≤ 127

instance (n : Int64) : Decidable (FitsByte n) :=
  inferInstanceAs (Decidable (_ ∧ _))

mutual

/-- The entries that an expression needs, in the order of evaluation. -/
def Expr.entries : Expr → List PoolEntry
  | .ident (.universal name) => [.name name]
  | .ident (.globalVar _ _) | .ident (.localVar _ _) => []
  | .int n => if FitsByte n then [] else [.literal (.int n)]
  | .str s => [.literal (.str s)]
  | .binary _ lhs rhs => lhs.entries ++ rhs.entries
  | .call callee args => callee.entries ++ argEntries args
  | .list items => itemEntries items

def argEntries : List Arg → List PoolEntry
  | [] => []
  | .positional e :: rest | .keyword _ e :: rest => e.entries ++ argEntries rest

def itemEntries : List Expr → List PoolEntry
  | [] => []
  | e :: rest => e.entries ++ itemEntries rest

end

mutual

/-- A definition needs an entry for its identity; its own body is not looked into. -/
def Stmt.entries : Stmt → List PoolEntry
  | .ret none | .pass => []
  | .ret (some e) | .eval e => e.entries
  | .define _ fn => [.function fn.id]
  | .forEach _ collection body => collection.entries ++ blockEntries body
  | .branch condition thenBody elseBody =>
    condition.entries ++ (blockEntries thenBody ++ blockEntries elseBody)
  | .assign _ value => value.entries

def blockEntries : List Stmt → List PoolEntry
  | [] => []
  | s :: rest => s.entries ++ blockEntries rest

end

def FunctionDef.entries (fn : FunctionDef) : List PoolEntry :=
  blockEntries fn.body

end Syntax

section Drawing

/-- What is asked of the pools is the entries `es`, the functions among them being those of the
definitions `fs`. -/
structure Demand.Draws (d : Demand) (es : List PoolEntry) (fs : List FunctionDef) : Prop where
  literals : d.literals = es.filterMap PoolEntry.literal?
  names : d.names = es.filterMap PoolEntry.name?
  functions : d.functions = es.filterMap PoolEntry.function?
  ids : es.filterMap PoolEntry.function? = fs.map (·.id)
  large : ∀ n, .literal (.int n) ∈ es → ¬FitsByte n

namespace Demand.Draws

variable {d e : Demand} {xs ys : List PoolEntry} {fs gs : List FunctionDef}

theorem blank (hl : d.literals = []) (hn : d.names = []) (hf : d.functions = []) :
    d.Draws [] [] :=
  ⟨hl, hn, hf, rfl, by simp⟩

theorem append (h : d.Draws xs fs) (k : e.Draws ys gs) :
    (d ++ e).Draws (xs ++ ys) (fs ++ gs) where
  literals := by rw [literals_append, h.literals, k.literals, List.filterMap_append]
  names := by rw [names_append, h.names, k.names, List.filterMap_append]
  functions := by rw [functions_append, h.functions, k.functions, List.filterMap_append]
  ids := by rw [List.filterMap_append, h.ids, k.ids, List.map_append]
  large n hn := (List.mem_append.mp hn).elim (h.large n) (k.large n)

theorem append_blank (h : d.Draws xs fs) (k : e.Draws [] []) : (d ++ e).Draws xs fs := by
  simpa using h.append k

theorem blank_append (h : d.Draws [] []) (k : e.Draws xs fs) : (d ++ e).Draws xs fs :=
  h.append k

end Demand.Draws

open Demand

theorem Value.pooledDemand_draws (v : Value) (h : ∀ n, v = .int n → ¬FitsByte n) :
    v.pooledDemand.Draws [.literal v] [] where
  literals := rfl
  names := rfl
  functions := rfl
  ids := rfl
  large n hn := by
    have hv : PoolEntry.literal (.int n) = .literal v := List.mem_singleton.mp hn
    exact h n (PoolEntry.literal.inj hv).symm

theorem Ident.storeDemand_draws (x : Ident) : x.storeDemand.Draws [] [] := by
  cases x <;> exact .blank rfl rfl rfl

mutual

theorem Expr.demand_draws : ∀ e : Expr, e.InSubset → e.demand.Draws e.entries []
  | .ident x, _ => by
    cases x with
    | universal name => exact ⟨rfl, rfl, rfl, rfl, by simp [Expr.entries]⟩
    | globalVar name slot => exact .blank rfl rfl rfl
    | localVar name slot => exact .blank rfl rfl rfl
  | .int n, _ => by
    have hdemand : (Expr.int n).demand =
        if FitsByte n then { size := 2 } else (Value.int n).pooledDemand := by
      rw [Expr.demand]
      rfl
    rw [hdemand, Expr.entries]
    by_cases hn : FitsByte n
    · rw [if_pos hn, if_pos hn]
      exact .blank rfl rfl rfl
    · rw [if_neg hn, if_neg hn]
      refine Value.pooledDemand_draws _ fun m hm => ?_
      rwa [← Value.int.inj hm]
  | .str s, _ => by
    rw [Expr.demand, Expr.entries]
    exact Value.pooledDemand_draws _ fun _ h => nomatch h
  | .binary op l r, h => by
    rw [Expr.InSubset] at h
    obtain ⟨rfl, hl, hr⟩ := h
    rw [Expr.demand, Expr.entries]
    exact (l.demand_draws hl).append ((r.demand_draws hr).append_blank (.blank rfl rfl rfl))
  | .call f args, h => by
    rw [Expr.InSubset] at h
    have hargs := (argsDemand_draws args h.2).append_blank
      (Draws.blank (d := { size := 2 }) rfl rfl rfl)
    rw [Expr.demand, Expr.entries]
    exact .blank_append (.blank rfl rfl rfl) ((f.demand_draws h.1).append hargs)
  | .list items, h => by
    rw [Expr.InSubset] at h
    exact h.elim

theorem argsDemand_draws : ∀ args : List Arg, ArgsInSubset args →
    (argsDemand args).Draws (argEntries args) []
  | [], _ => .blank rfl rfl rfl
  | .positional e :: rest, h => by
    rw [ArgsInSubset] at h
    rw [argsDemand, argEntries]
    exact (e.demand_draws h.1).append (argsDemand_draws rest h.2)
  | .keyword name e :: rest, h => by
    rw [ArgsInSubset] at h
    exact h.elim

end

mutual

theorem Stmt.demand_draws : ∀ s : Stmt, s.InSubset → s.demand.Draws s.entries s.defs
  | .ret none, _ => .blank rfl rfl rfl
  | .ret (some e), h => by
    rw [Stmt.InSubset] at h
    rw [Stmt.demand, Stmt.entries, Stmt.defs]
    exact (e.demand_draws h).append_blank (.blank rfl rfl rfl)
  | .eval e, h => by
    rw [Stmt.InSubset] at h
    rw [Stmt.demand, Stmt.entries, Stmt.defs]
    exact (e.demand_draws h).append_blank (.blank rfl rfl rfl)
  | .define target fn, _ => by
    rw [Stmt.demand, Stmt.entries, Stmt.defs]
    have hid : ({ functions := [fn.id] } : Demand).Draws [.function fn.id] [fn] :=
      ⟨rfl, rfl, rfl, rfl, by simp⟩
    exact hid.append_blank (.blank_append (.blank rfl rfl rfl) target.storeDemand_draws)
  | .forEach target collection body, h => by
    rw [Stmt.InSubset] at h
    obtain ⟨⟨x, rfl, -⟩, hc, hb⟩ := h
    rw [Stmt.demand, Stmt.entries, Stmt.defs]
    -- Of all that belongs to the loop, only the body needs entries.
    have hloop : ({ size := 1 } ++ ({ size := 3 } ++ (x.storeDemand ++ (blockDemand body ++
        { loopSizes := [(blockDemand body).size], size := 3 }))) : Demand).Draws
        (blockEntries body) (blockDefs body) :=
      .blank_append (.blank rfl rfl rfl) (.blank_append (.blank rfl rfl rfl)
        (.blank_append x.storeDemand_draws
          ((blockDemand_draws body hb).append_blank (.blank rfl rfl rfl))))
    exact (collection.demand_draws hc).append hloop
  | .branch _ _ _, h | .assign _ _, h | .pass, h => by
    rw [Stmt.InSubset] at h
    exact h.elim

theorem blockDemand_draws : ∀ body : List Stmt, BlockInSubset body →
    (blockDemand body).Draws (blockEntries body) (blockDefs body)
  | [], _ => .blank rfl rfl rfl
  | s :: rest, h => by
    rw [BlockInSubset] at h
    rw [blockDemand, blockEntries, blockDefs]
    exact (s.demand_draws h.1).append (blockDemand_draws rest h.2)

end

end Drawing

section Taking

def Instr.usesPool : Instr → Bool
  | .pushConstant _ | .loadUniversal _ | .makeFunction _ => true
  | _ => false

def CodeUnit.entryOf? (u : CodeUnit) : Instr → Option PoolEntry
  | .pushConstant i => (u.constantAt? i).map .literal
  | .loadUniversal i => (u.nameAt? i).map .name
  | .makeFunction i => (u.functionAt? i).map .function
  | _ => none

/-- The instructions of `is` that use a pool lead to the entries `es`, one after the other. -/
def CodeUnit.Takes (u : CodeUnit) (es : List PoolEntry) (is : List Instr) : Prop :=
  (is.filter Instr.usesPool).map u.entryOf? = es.map some

namespace CodeUnit.Takes

variable {u : CodeUnit} {xs ys : List PoolEntry} {is js : List Instr} {i : Instr}

theorem nil : u.Takes [] [] := rfl

theorem append (h : u.Takes xs is) (k : u.Takes ys js) : u.Takes (xs ++ ys) (is ++ js) := by
  unfold Takes at *
  rw [List.filter_append, List.map_append, List.map_append, h, k]

theorem entry {e : PoolEntry} (hi : i.usesPool) (he : u.entryOf? i = some e) :
    u.Takes [e] [i] := by
  unfold Takes
  rw [List.filter_cons_of_pos hi, List.map_cons, he]
  rfl

theorem cons (hi : i.usesPool = false) (h : u.Takes xs is) : u.Takes xs (i :: is) := by
  unfold Takes at *
  rwa [List.filter_cons_of_neg (by simp [hi])]

theorem snoc (h : u.Takes xs is) (hi : i.usesPool = false) : u.Takes xs (is ++ [i]) := by
  simpa using h.append (.cons hi .nil)

end CodeUnit.Takes

theorem Ident.usesPool_of_storeInstr? {target : Ident} {store : Instr}
    (h : target.storeInstr? = some store) : store.usesPool = false := by
  cases target with
  | localVar name slot =>
    obtain rfl := Option.some.inj h
    rfl
  | globalVar name slot =>
    obtain rfl := Option.some.inj h
    rfl
  | universal name => cases h

theorem fitsByte_toInt64 (k : Int8) : FitsByte k.toInt64 := by
  have hlow := k.le_toInt
  have hhigh := k.toInt_lt
  rw [FitsByte, Int8.toInt_toInt64]
  omega

variable {p : Lowered}

/-- The shape of code leaves it open whether a small integer comes from the pool: that it does not
is due to what is in the pool. -/
def CodeUnit.PoolsLarge (u : CodeUnit) : Prop :=
  ∀ i n, u.constantAt? i = some (.int n) → ¬FitsByte n

mutual

theorem ExprCode.takes (hp : p.unit.PoolsLarge) : ∀ {e : Expr} {is : List Instr}, ExprCode p e is →
    p.unit.Takes e.entries is
  | _, _, .loadLocal => by
    rw [Expr.entries]
    exact .cons rfl .nil
  | _, _, .loadGlobal => by
    rw [Expr.entries]
    exact .cons rfl .nil
  | _, _, .loadUniversal hi => by
    rw [Expr.entries]
    exact .entry rfl (by rw [CodeUnit.entryOf?, hi]; rfl)
  | _, _, @ExprCode.small _ n k hk => by
    have hn : FitsByte n := hk ▸ fitsByte_toInt64 k
    rw [Expr.entries, if_pos hn]
    exact .cons rfl .nil
  | _, _, @ExprCode.int _ n i hi => by
    rw [Expr.entries, if_neg (hp i n hi)]
    exact .entry rfl (by rw [CodeUnit.entryOf?, hi]; rfl)
  | _, _, .str hi => by
    rw [Expr.entries]
    exact .entry rfl (by rw [CodeUnit.entryOf?, hi]; rfl)
  | _, _, .add hl hr => by
    rw [Expr.entries]
    exact (hl.takes hp).append ((hr.takes hp).snoc rfl)
  | _, _, .call hf ha _ => by
    rw [Expr.entries]
    exact (hf.takes hp).append ((ha.takes hp).snoc rfl)

theorem ArgsCode.takes (hp : p.unit.PoolsLarge) : ∀ {args : List Arg} {is : List Instr},
    ArgsCode p args is → p.unit.Takes (argEntries args) is
  | _, _, .nil => by
    rw [argEntries]
    exact .nil
  | _, _, .cons he hr => by
    rw [argEntries]
    exact (he.takes hp).append (hr.takes hp)

end

mutual

theorem StmtCode.takes (hp : p.unit.PoolsLarge) : ∀ {s : Stmt} {is : List Instr}, StmtCode p s is →
    p.unit.Takes s.entries is
  | _, _, .ret he => by
    rw [Stmt.entries]
    exact (he.takes hp).snoc rfl
  | _, _, .retNone => by
    rw [Stmt.entries]
    exact .cons rfl (.cons rfl .nil)
  | _, _, .eval he => by
    rw [Stmt.entries]
    exact (he.takes hp).snoc rfl
  | _, _, @StmtCode.define _ target fn i store hi _ hs => by
    rw [Stmt.entries]
    have hmake : p.unit.Takes [.function fn.id] [.makeFunction i] :=
      .entry rfl (by rw [CodeUnit.entryOf?, hi]; rfl)
    exact hmake.snoc (Ident.usesPool_of_storeInstr? hs)
  | _, _, .forEach hc hs hb _ _ => by
    rw [Stmt.entries]
    exact (hc.takes hp).append (.cons rfl (.cons rfl
      (.cons (Ident.usesPool_of_storeInstr? hs) ((hb.takes hp).snoc rfl))))

theorem BlockCode.takes (hp : p.unit.PoolsLarge) : ∀ {body : List Stmt} {is : List Instr},
    BlockCode p body is → p.unit.Takes (blockEntries body) is
  | _, _, .nil => by
    rw [blockEntries]
    exact .nil
  | _, _, .cons hs hr => by
    rw [blockEntries]
    exact (hs.takes hp).append (hr.takes hp)

end

end Taking

section Entries

variable {α : Type} [BEq α] [LawfulBEq α] {pool : Array α} {xs : List α} {a : α}

theorem mem_of_pool (h : pool.toList = xs.eraseDups) {k : Nat} (hk : pool[k]? = some a) :
    a ∈ xs := by
  have hmem : a ∈ pool.toList := Array.mem_toList_iff.mpr (Array.mem_of_getElem? hk)
  rw [h] at hmem
  exact List.mem_eraseDups.mp hmem

/-- An entry stands in a pool once, so it has one index. -/
theorem index_inj [DecidableEq α] (h : pool.toList = xs.eraseDups) {i j : UInt16}
    (hi : pool[i.toNat]? = some a) (hj : pool[j.toNat]? = some a) : i = j := by
  have hnodup : pool.toList.Nodup := by
    rw [h, ← collect_nil_eq_eraseDups]
    exact nodup_collect List.nodup_nil xs
  have hbound : i.toNat < pool.toList.length := by
    simpa using (Array.getElem?_eq_some_iff.mp hi).1
  apply UInt16.toNat_inj.mp
  apply (List.getElem?_inj hbound hnodup).mp
  rw [Array.getElem?_toList, Array.getElem?_toList, hi, hj]

theorem CodeUnit.entryOf?_cases {u : CodeUnit} {i : Instr} {e : PoolEntry}
    (h : u.entryOf? i = some e) :
    (∃ k v, i = .pushConstant k ∧ e = .literal v ∧ u.constants[k.toNat]? = some v) ∨
    (∃ k name, i = .loadUniversal k ∧ e = .name name ∧ u.names[k.toNat]? = some name) ∨
    ∃ k id, i = .makeFunction k ∧ e = .function id ∧ u.functions[k.toNat]? = some id := by
  cases i with
  | pushConstant k =>
    obtain ⟨v, hv, rfl⟩ := Option.map_eq_some_iff.mp h
    exact .inl ⟨k, v, rfl, rfl, hv⟩
  | loadUniversal k =>
    obtain ⟨name, hname, rfl⟩ := Option.map_eq_some_iff.mp h
    exact .inr (.inl ⟨k, name, rfl, rfl, hname⟩)
  | makeFunction k =>
    obtain ⟨id, hid, rfl⟩ := Option.map_eq_some_iff.mp h
    exact .inr (.inr ⟨k, id, rfl, rfl, hid⟩)
  | _ => cases h

theorem NestedDefs.ids_register (t : NestedDefs) (fn : FunctionDef) :
    (t.register fn).entries.map (·.id) =
      if fn.id ∈ t.entries.map (·.id) then t.entries.map (·.id)
      else t.entries.map (·.id) ++ [fn.id] := by
  have hmem : t.contains fn.id ↔ fn.id ∈ t.entries.map (·.id) := by
    simp [contains, List.any_eq_true]
  unfold register
  by_cases hfn : fn.id ∈ t.entries.map (·.id)
  · rw [if_pos hfn, if_pos (hmem.mpr hfn)]
  · rw [if_neg hfn, if_neg (fun h => hfn (hmem.mp h)), List.map_append]
    rfl

/-- The table takes in identities as the pool of functions does. -/
theorem NestedDefs.ids_registerAll (t : NestedDefs) (fs : List FunctionDef) :
    (t.registerAll fs).entries.map (·.id) = collect (t.entries.map (·.id)) (fs.map (·.id)) := by
  induction fs generalizing t with
  | nil => rfl
  | cons fn fs ih => rw [registerAll_cons, ih, ids_register, List.map_cons, collect_cons]

end Entries

/-- The pools of `p` hold what `fn` needs, each entry once and where it occurs first, and the table
has a definition for each identity in the pool of functions: the first one under that identity. -/
structure Lowered.PoolsOf (p : Lowered) (fn : FunctionDef) : Prop where
  constants : p.unit.constants.toList = (fn.entries.filterMap PoolEntry.literal?).eraseDups
  names : p.unit.names.toList = (fn.entries.filterMap PoolEntry.name?).eraseDups
  functions : p.unit.functions.toList = (fn.defs.map (·.id)).eraseDups
  ids : p.functions.entries.map (·.id) = p.unit.functions.toList
  table : ∀ id, p.functions.get? id = fn.defs.find? (·.id == id)

theorem FunctionDef.lower_draws {fn : FunctionDef} {p : Lowered} (h : fn.lower = .ok p) :
    fn.demand.Draws fn.entries fn.defs := by
  have hserved := fn.lowering_meets.served (lower_eq_ok_iff.mp h)
  have houtside := (Demand.granted_append.mp hserved.granted).1.outside
  exact blockDemand_draws fn.body ((blockOutside_eq_nil_iff fn.body).mp houtside)

theorem FunctionDef.lower_poolsOf {fn : FunctionDef} {p : Lowered} (h : fn.lower = .ok p) :
    p.PoolsOf fn := by
  have hserved := fn.lowering_meets.served (lower_eq_ok_iff.mp h)
  have hdraws := fn.lower_draws h
  obtain ⟨is, hr⟩ := fn.lower_renders h
  have hfunctions : p.unit.functions.toList = (fn.defs.map (·.id)).eraseDups := by
    rw [hserved.functions, Demand.functions_append, List.append_nil, hdraws.functions, hdraws.ids]
    exact collect_nil_eq_eraseDups _
  refine ⟨?_, ?_, hfunctions, ?_, fun id => ?_⟩
  · rw [hserved.constants, Demand.literals_append, List.append_nil, hdraws.literals]
    exact collect_nil_eq_eraseDups _
  · rw [hserved.names, Demand.names_append, List.append_nil, hdraws.names]
    exact collect_nil_eq_eraseDups _
  · rw [hfunctions, hr.functions, NestedDefs.ids_registerAll]
    exact collect_nil_eq_eraseDups _
  · rw [hr.functions, NestedDefs.get?_registerAll]
    rfl

/-- The instructions `is` go through the entries `es` from first to last, each with an index of its
own entry. No entry of the pools is left over, and none stands at two indices. -/
structure CodeUnit.TakenBy (u : CodeUnit) (es : List PoolEntry) (is : List Instr) : Prop where
  takes : u.Takes es is
  used : ∀ i e, u.entryOf? i = some e → i ∈ is
  unique : ∀ i j e, u.entryOf? i = some e → u.entryOf? j = some e → i = j

namespace Lowered.PoolsOf

variable {p : Lowered} {fn : FunctionDef}

theorem mem_entries (h : p.PoolsOf fn) (hd : fn.demand.Draws fn.entries fn.defs) {i : Instr}
    {e : PoolEntry} (he : p.unit.entryOf? i = some e) : e ∈ fn.entries := by
  rcases CodeUnit.entryOf?_cases he with ⟨k, v, -, rfl, hk⟩ | ⟨k, name, -, rfl, hk⟩ |
    ⟨k, id, -, rfl, hk⟩
  · simpa using mem_of_pool h.constants hk
  · simpa using mem_of_pool h.names hk
  · have hid := mem_of_pool h.functions hk
    rw [← hd.ids] at hid
    simpa using hid

theorem large (h : p.PoolsOf fn) (hd : fn.demand.Draws fn.entries fn.defs) :
    p.unit.PoolsLarge := by
  intro i n hi
  have hentry : p.unit.entryOf? (.pushConstant i) = some (.literal (.int n)) := by
    rw [CodeUnit.entryOf?, hi]
    rfl
  exact hd.large n (h.mem_entries hd hentry)

theorem instr_unique (h : p.PoolsOf fn) {i j : Instr} {e : PoolEntry}
    (hi : p.unit.entryOf? i = some e) (hj : p.unit.entryOf? j = some e) : i = j := by
  rcases CodeUnit.entryOf?_cases hi with ⟨k, v, rfl, rfl, hk⟩ | ⟨k, name, rfl, rfl, hk⟩ |
    ⟨k, id, rfl, rfl, hk⟩ <;>
  rcases CodeUnit.entryOf?_cases hj with ⟨l, v, rfl, he, hl⟩ | ⟨l, name, rfl, he, hl⟩ |
    ⟨l, id, rfl, he, hl⟩ <;>
  cases he
  · rw [index_inj h.constants hk hl]
  · rw [index_inj h.names hk hl]
  · rw [index_inj h.functions hk hl]

/-- An entry that no instruction used would not be among those the body needs. -/
theorem takenBy (h : p.PoolsOf fn) (hd : fn.demand.Draws fn.entries fn.defs) {is : List Instr}
    (ht : p.unit.Takes fn.entries is) : p.unit.TakenBy fn.entries is where
  takes := ht
  used i e hi := by
    have hmem : some e ∈ fn.entries.map some := List.mem_map_of_mem (h.mem_entries hd hi)
    rw [← ht] at hmem
    obtain ⟨j, hj, he⟩ := List.mem_map.mp hmem
    rw [h.instr_unique hi he]
    exact (List.mem_filter.mp hj).1
  unique _ _ _ hi hj := h.instr_unique hi hj

end Lowered.PoolsOf

/-- The pools of a lowered function hold what its body needs and nothing else, each entry once and
in the order of first occurrence. The table has the identities in the pool of functions, and where
definitions do not share identities, each leads to its own definition. The instructions that use a
pool match the needs of the body one by one. -/
theorem pools_exact {fn : FunctionDef} {p : Lowered} (h : fn.lower = .ok p) :
    p.PoolsOf fn ∧
    (fn.DistinctDefs → ∀ g ∈ fn.defs, p.functions.get? g.id = some g) ∧
    ∃ is, p.unit.code.toList = encodeAll is ∧ p.unit.TakenBy fn.entries is := by
  have hpools := fn.lower_poolsOf h
  have hdraws := fn.lower_draws h
  refine ⟨hpools, fun hdistinct g hg => ?_, ?_⟩
  · obtain ⟨f, hf⟩ : ∃ f, fn.defs.find? (·.id == g.id) = some f := by
      apply Option.isSome_iff_exists.mp
      exact List.find?_isSome.mpr ⟨g, hg, beq_self_eq_true g.id⟩
    have hid : f.id = g.id := by simpa using List.find?_some hf
    have hfg : f = g := hdistinct f (List.mem_of_find?_eq_some hf) g hg hid
    rw [hpools.table, hf, hfg]
  · obtain ⟨is, hr⟩ := fn.lower_renders h
    have htakes := (hr.block.takes (hpools.large hdraws)).append
      (.cons (i := .pushNone) rfl (.cons (i := .ret) rfl .nil))
    rw [List.append_nil] at htakes
    exact ⟨_, hr.bytes, hpools.takenBy hdraws htakes⟩

/-- Defines a function twice, and prints a text and a large number twice. -/
def Demo.repeating : FunctionDef :=
  let say (args : List Expr) : Stmt :=
    .eval (.call (.ident (.universal "print")) (args.map .positional))
  .make 10 "repeating" [] (some 1)
    [.define (.localVar "one" 0) Demo.one, say [.str "sum", .int 1000, .int 1],
      .define (.localVar "one" 0) Demo.one, say [.int 1000, .str "sum"]]

theorem repeating_pools : ∃ p, Demo.repeating.lower = .ok p ∧
    p.unit.constants.toList = [.str "sum", .int 1000] ∧ p.unit.names.toList = ["print"] ∧
    p.unit.functions.toList = [3] ∧ p.functions.get? 3 = some Demo.one ∧
    ∃ is, p.unit.code.toList = encodeAll is ∧
      (is.filter Instr.usesPool).map p.unit.entryOf? =
        [.function 3, .name "print", .literal (.str "sum"), .literal (.int 1000), .function 3,
          .name "print", .literal (.int 1000), .literal (.str "sum")].map some := by
  have hdefs : Demo.repeating.defs = [Demo.one, Demo.one] := rfl
  have hdistinct : Demo.repeating.DistinctDefs := by
    intro f hf g hg _
    simp only [hdefs, List.mem_cons, List.not_mem_nil, or_false, or_self] at hf hg
    rw [hf, hg]
  have hok : Demo.repeating.lower.isOk := by decide +kernel
  cases hp : Demo.repeating.lower with
  | error e => simp [hp, Except.isOk, Except.toBool] at hok
  | ok p =>
    obtain ⟨hpools, hown, is, hbytes, htaken⟩ := pools_exact hp
    refine ⟨p, rfl, hpools.constants, hpools.names, hpools.functions, ?_, is, hbytes, htaken.takes⟩
    exact hown hdistinct Demo.one (by simp [hdefs])

end Tiered
