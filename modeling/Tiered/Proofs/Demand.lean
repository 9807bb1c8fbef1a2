import Mathlib.Data.Finset.Card
import Tiered.Code.Build
import Tiered.Proofs.Occurrences

/-! What a function body asks of lowering, read off its syntax: the constructs outside the subset
that units can express, the arguments of its calls, the sizes of its loops, the entries of the pools
and the bytes of the code. The bodies of nested definitions are not looked into. -/
namespace Tiered

/-- What a piece of a body asks of lowering, in the order lowering comes to it. `outside` holds the
outermost constructs outside the subset, `argCounts` an entry for each call, and `loopSizes` the
size of each loop body in bytes. -/
@[ext] structure Demand where
  outside : List Construct := []
  argCounts : List Nat := []
  loopSizes : List Nat := []
  literals : List Value := []
  names : List String := []
  functions : List FunctionId := []
  size : Nat := 0

instance : Append Demand where
  append d e :=
    { outside := d.outside ++ e.outside
      argCounts := d.argCounts ++ e.argCounts
      loopSizes := d.loopSizes ++ e.loopSizes
      literals := d.literals ++ e.literals
      names := d.names ++ e.names
      functions := d.functions ++ e.functions
      size := d.size + e.size }

namespace Demand

variable (d e : Demand)

@[simp] theorem outside_append : (d ++ e).outside = d.outside ++ e.outside := rfl

@[simp] theorem argCounts_append : (d ++ e).argCounts = d.argCounts ++ e.argCounts := rfl

@[simp] theorem loopSizes_append : (d ++ e).loopSizes = d.loopSizes ++ e.loopSizes := rfl

@[simp] theorem literals_append : (d ++ e).literals = d.literals ++ e.literals := rfl

@[simp] theorem names_append : (d ++ e).names = d.names ++ e.names := rfl

@[simp] theorem functions_append : (d ++ e).functions = d.functions ++ e.functions := rfl

@[simp] theorem size_append : (d ++ e).size = d.size + e.size := rfl

@[simp] theorem empty_append : ({} : Demand) ++ d = d :=
  Demand.ext rfl rfl rfl rfl rfl rfl (Nat.zero_add _)

end Demand

section Syntax

/-- Names of builtins go into a pool; slots are operands. -/
def Ident.loadDemand : Ident → Demand
  | .universal name => { names := [name], size := 3 }
  | .globalVar _ _ | .localVar _ _ => { size := 3 }

def Ident.storeDemand : Ident → Demand
  | .universal _ => { outside := [.universalStore] }
  | .globalVar _ _ | .localVar _ _ => { size := 3 }

def Value.pooledDemand (v : Value) : Demand :=
  { literals := [v], size := 3 }

mutual

/-- Integers of one signed byte stay out of the pool. -/
def Expr.demand : Expr → Demand
  | .ident x => x.loadDemand
  | .int n => if -128 ≤ n.toInt ∧ n.toInt ≤ 127 then { size := 2 } else (Value.int n).pooledDemand
  | .str s => (Value.str s).pooledDemand
  | .binary .add lhs rhs => lhs.demand ++ (rhs.demand ++ { size := 1 })
  | .binary op _ _ => { outside := [.operator op.symbol] }
  | .call callee args =>
    { argCounts := [args.length] } ++ (callee.demand ++ (argsDemand args ++ { size := 2 }))
  | .list _ => { outside := [.expression .list] }

def argsDemand : List Arg → Demand
  | [] => {}
  | .positional e :: rest => e.demand ++ argsDemand rest
  | .keyword name _ :: rest => { outside := [.keywordArgument name] } ++ argsDemand rest

end

mutual

/-- A loop takes a byte for the iterator, three for its head and three for the jump back. -/
def Stmt.demand : Stmt → Demand
  | .ret none => { size := 2 }
  | .ret (some e) | .eval e => e.demand ++ { size := 1 }
  | .define target fn => { functions := [fn.id] } ++ ({ size := 3 } ++ target.storeDemand)
  | .forEach (.ident x) collection body =>
    collection.demand ++ ({ size := 1 } ++ ({ size := 3 } ++ (x.storeDemand ++
      (blockDemand body ++ { loopSizes := [(blockDemand body).size], size := 3 }))))
  | .forEach target _ _ => { outside := [.loopTarget target.kind] }
  | .branch _ _ _ => { outside := [.statement .branch] }
  | .assign _ _ => { outside := [.statement .assign] }
  | .pass => { outside := [.statement .pass] }

def blockDemand : List Stmt → Demand
  | [] => {}
  | s :: rest => s.demand ++ blockDemand rest

end

def FunctionDef.demand (fn : FunctionDef) : Demand :=
  blockDemand fn.body

end Syntax

section Subset

mutual

/-- Identifiers, literals, sums, and calls with positional arguments, of such expressions. -/
def Expr.InSubset : Expr → Prop
  | .ident _ | .int _ | .str _ => True
  | .binary op lhs rhs => op = .add ∧ lhs.InSubset ∧ rhs.InSubset
  | .call callee args => callee.InSubset ∧ ArgsInSubset args
  | .list _ => False

def ArgsInSubset : List Arg → Prop
  | [] => True
  | .positional e :: rest => e.InSubset ∧ ArgsInSubset rest
  | .keyword _ _ :: _ => False

end

mutual

/-- Returns, expressions, definitions, and loops over a single identifier; no universal name is
stored to. -/
def Stmt.InSubset : Stmt → Prop
  | .ret none => True
  | .ret (some e) | .eval e => e.InSubset
  | .define target _ => target.isUniversal = false
  | .forEach target collection body =>
    (∃ x : Ident, target = .ident x ∧ x.isUniversal = false) ∧ collection.InSubset ∧
      BlockInSubset body
  | .branch _ _ _ | .assign _ _ | .pass => False

def BlockInSubset : List Stmt → Prop
  | [] => True
  | s :: rest => s.InSubset ∧ BlockInSubset rest

end

def FunctionDef.InSubset (fn : FunctionDef) : Prop :=
  BlockInSubset fn.body

theorem Ident.outside_loadDemand (x : Ident) : x.loadDemand.outside = [] := by
  cases x <;> rfl

theorem Ident.outside_storeDemand_eq_nil_iff (x : Ident) :
    x.storeDemand.outside = [] ↔ x.isUniversal = false := by
  cases x <;> simp [storeDemand, isUniversal]

mutual

theorem Expr.outside_eq_nil_iff : ∀ e : Expr, e.demand.outside = [] ↔ e.InSubset
  | .ident x => by simp [Expr.demand, Expr.InSubset, x.outside_loadDemand]
  | .int n => by
    simp only [Expr.demand, Expr.InSubset, iff_true]
    split <;> rfl
  | .str s => by simp [Expr.demand, Expr.InSubset, Value.pooledDemand]
  | .binary op l r => by
    cases op with
    | add => simp [Expr.demand, Expr.InSubset, l.outside_eq_nil_iff, r.outside_eq_nil_iff]
    | sub | mul | eq | lt => simp [Expr.demand, Expr.InSubset]
  | .call f args => by
    simp [Expr.demand, Expr.InSubset, f.outside_eq_nil_iff, argsOutside_eq_nil_iff args]
  | .list items => by simp [Expr.demand, Expr.InSubset]

theorem argsOutside_eq_nil_iff : ∀ args : List Arg,
    (argsDemand args).outside = [] ↔ ArgsInSubset args
  | [] => by simp [argsDemand, ArgsInSubset]
  | .positional e :: rest => by
    simp [argsDemand, ArgsInSubset, e.outside_eq_nil_iff, argsOutside_eq_nil_iff rest]
  | .keyword name e :: rest => by simp [argsDemand, ArgsInSubset]

end

mutual

theorem Stmt.outside_eq_nil_iff : ∀ s : Stmt, s.demand.outside = [] ↔ s.InSubset
  | .ret none => by simp [Stmt.demand, Stmt.InSubset]
  | .ret (some e) => by simp [Stmt.demand, Stmt.InSubset, e.outside_eq_nil_iff]
  | .eval e => by simp [Stmt.demand, Stmt.InSubset, e.outside_eq_nil_iff]
  | .define target fn => by
    simp [Stmt.demand, Stmt.InSubset, target.outside_storeDemand_eq_nil_iff]
  | .forEach target collection body => by
    cases target with
    | ident x =>
      simp [Stmt.demand, Stmt.InSubset, collection.outside_eq_nil_iff,
        x.outside_storeDemand_eq_nil_iff, blockOutside_eq_nil_iff body]
      tauto
    | int _ | str _ | binary _ _ _ | call _ _ | list _ => simp [Stmt.demand, Stmt.InSubset]
  | .branch _ _ _ => by simp [Stmt.demand, Stmt.InSubset]
  | .assign _ _ => by simp [Stmt.demand, Stmt.InSubset]
  | .pass => by simp [Stmt.demand, Stmt.InSubset]

theorem blockOutside_eq_nil_iff : ∀ body : List Stmt,
    (blockDemand body).outside = [] ↔ BlockInSubset body
  | [] => by simp [blockDemand, BlockInSubset]
  | s :: rest => by
    simp [blockDemand, BlockInSubset, s.outside_eq_nil_iff, blockOutside_eq_nil_iff rest]

end

end Subset

section Collecting

variable {α : Type} [DecidableEq α]

/-- A pool after it took in `xs`, each of them once. -/
def collect (pool xs : List α) : List α :=
  xs.foldl (fun pool x => if x ∈ pool then pool else pool ++ [x]) pool

@[simp] theorem collect_nil (pool : List α) : collect pool [] = pool := rfl

@[simp] theorem collect_cons (pool : List α) (x : α) (xs : List α) :
    collect pool (x :: xs) = collect (if x ∈ pool then pool else pool ++ [x]) xs := rfl

@[simp] theorem collect_append (pool xs ys : List α) :
    collect pool (xs ++ ys) = collect (collect pool xs) ys :=
  List.foldl_append

theorem prefix_collect (pool xs : List α) : pool <+: collect pool xs := by
  induction xs generalizing pool with
  | nil => exact List.prefix_rfl
  | cons x xs ih =>
    rw [collect_cons]
    apply List.IsPrefix.trans _ (ih _)
    split
    · exact List.prefix_rfl
    · exact List.prefix_append _ _

theorem mem_collect {pool xs : List α} {a : α} : a ∈ collect pool xs ↔ a ∈ pool ∨ a ∈ xs := by
  induction xs generalizing pool with
  | nil => simp
  | cons x xs ih =>
    rw [collect_cons, ih]
    split
    · rename_i hx
      constructor
      · rintro (h | h)
        · exact .inl h
        · exact .inr (List.mem_cons_of_mem _ h)
      · rintro (h | h)
        · exact .inl h
        · rcases List.mem_cons.mp h with rfl | h
          · exact .inl hx
          · exact .inr h
    · simp [or_assoc]

theorem nodup_collect {pool : List α} (hp : pool.Nodup) (xs : List α) : (collect pool xs).Nodup := by
  induction xs generalizing pool with
  | nil => exact hp
  | cons x xs ih =>
    rw [collect_cons]
    apply ih
    split
    · exact hp
    · rename_i hx
      apply List.nodup_append.mpr
      refine ⟨hp, List.nodup_singleton x, ?_⟩
      rintro a ha _ hb rfl
      exact hx (List.mem_singleton.mp hb ▸ ha)

/-- An empty pool takes in as many entries as there are different ones. -/
theorem length_collect_nil (xs : List α) : (collect [] xs).length = xs.toFinset.card := by
  rw [← List.toFinset_card_of_nodup (nodup_collect List.nodup_nil xs)]
  congr 1
  ext a
  simp [mem_collect]

/-- A pool that starts empty keeps the first of equal entries. -/
theorem collect_nil_eq_eraseDups [BEq α] [LawfulBEq α] (xs : List α) :
    collect [] xs = xs.eraseDups := by
  induction xs using List.reverseRecOn with
  | nil => rfl
  | append_singleton xs x ih =>
    rw [collect_append, ih, List.eraseDups_append, collect_cons, collect_nil]
    by_cases hx : x ∈ xs
    · rw [if_pos (List.mem_eraseDups.mpr hx)]
      simp [List.removeAll, hx]
    · rw [if_neg (fun h => hx (List.mem_eraseDups.mp h))]
      simp [List.removeAll, hx, List.eraseDups_cons]

end Collecting

end Tiered
