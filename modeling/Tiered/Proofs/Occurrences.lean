import Tiered.Program

/-! What occurs in a function: the identifiers of its body, the names its slots go by, the targets it
binds, and the definitions nested in it. The bodies of nested definitions are not looked into. -/
namespace Tiered

/-- A slot and a name it goes by. -/
abbrev SlotUse := UInt16 × String

namespace Ident

def localUse? : Ident → Option SlotUse
  | localVar name slot => some (slot, name)
  | _ => none

def globalUse? : Ident → Option SlotUse
  | globalVar name slot => some (slot, name)
  | _ => none

def isUniversal : Ident → Bool
  | universal _ => true
  | globalVar _ _ | localVar _ _ => false

end Ident

mutual

def Expr.idents : Expr → List Ident
  | .ident x => [x]
  | .int _ | .str _ => []
  | .binary _ lhs rhs => lhs.idents ++ rhs.idents
  | .call callee args => callee.idents ++ argIdents args
  | .list items => itemIdents items

def argIdents : List Arg → List Ident
  | [] => []
  | .positional e :: rest | .keyword _ e :: rest => e.idents ++ argIdents rest

def itemIdents : List Expr → List Ident
  | [] => []
  | e :: rest => e.idents ++ itemIdents rest

end

mutual

/-- The identifiers that a statement loads or stores to, in the order it comes to them. -/
def Stmt.idents : Stmt → List Ident
  | .ret none | .pass => []
  | .ret (some e) | .eval e => e.idents
  | .define target _ => [target]
  | .forEach target collection body => collection.idents ++ (target.idents ++ blockIdents body)
  | .branch condition thenBody elseBody =>
    condition.idents ++ (blockIdents thenBody ++ blockIdents elseBody)
  | .assign target value => value.idents ++ [target]

def blockIdents : List Stmt → List Ident
  | [] => []
  | s :: rest => s.idents ++ blockIdents rest

end

mutual

/-- Targets that values can be bound to: identifiers, unless they are universal, and lists of such
targets. -/
def Expr.isTarget : Expr → Bool
  | .ident x => !x.isUniversal
  | .list items => areTargets items
  | .int _ | .str _ | .binary _ _ _ | .call _ _ => false

def areTargets : List Expr → Bool
  | [] => true
  | e :: rest => e.isTarget && areTargets rest

end

theorem areTargets_iff {items : List Expr} : areTargets items ↔ ∀ e ∈ items, e.isTarget := by
  induction items with
  | nil => simp [areTargets]
  | cons e rest ih => simp [areTargets, ih]

mutual

def Stmt.targets : Stmt → List Expr
  | .define target _ | .assign target _ => [.ident target]
  | .forEach target _ body => target :: blockTargets body
  | .branch _ thenBody elseBody => blockTargets thenBody ++ blockTargets elseBody
  | .ret _ | .eval _ | .pass => []

def blockTargets : List Stmt → List Expr
  | [] => []
  | s :: rest => s.targets ++ blockTargets rest

end

mutual

/-- The definitions that a statement makes function values of. -/
def Stmt.defs : Stmt → List FunctionDef
  | .define _ fn => [fn]
  | .forEach _ _ body => blockDefs body
  | .branch _ thenBody elseBody => blockDefs thenBody ++ blockDefs elseBody
  | .ret _ | .eval _ | .assign _ _ | .pass => []

def blockDefs : List Stmt → List FunctionDef
  | [] => []
  | s :: rest => s.defs ++ blockDefs rest

end

def OneNamePerSlot (uses : List SlotUse) : Prop :=
  ∀ a ∈ uses, ∀ b ∈ uses, a.1 = b.1 → a.2 = b.2

instance (uses : List SlotUse) : Decidable (OneNamePerSlot uses) :=
  inferInstanceAs (Decidable (∀ a ∈ uses, ∀ b ∈ uses, a.1 = b.1 → a.2 = b.2))

namespace FunctionDef

def idents (fn : FunctionDef) : List Ident :=
  blockIdents fn.body

def targets (fn : FunctionDef) : List Expr :=
  blockTargets fn.body

def defs (fn : FunctionDef) : List FunctionDef :=
  blockDefs fn.body

/-- Parameters name the first local slots. -/
def paramUses (fn : FunctionDef) : List SlotUse :=
  fn.params.zipIdx.map fun p => (UInt16.ofNat p.2, p.1)

def localUses (fn : FunctionDef) : List SlotUse :=
  fn.paramUses ++ fn.idents.filterMap Ident.localUse?

def globalUses (fn : FunctionDef) : List SlotUse :=
  fn.idents.filterMap Ident.globalUse?

/-- Every slot, local or global, goes by one name throughout the function. -/
def SingleNamed (fn : FunctionDef) : Prop :=
  OneNamePerSlot fn.localUses ∧ OneNamePerSlot fn.globalUses

instance (fn : FunctionDef) : Decidable fn.SingleNamed :=
  inferInstanceAs (Decidable (_ ∧ _))

/-- Definitions nested in the function that share an identity are the same. -/
def DistinctDefs (fn : FunctionDef) : Prop :=
  ∀ f ∈ fn.defs, ∀ g ∈ fn.defs, f.id = g.id → f = g

end FunctionDef

end Tiered
