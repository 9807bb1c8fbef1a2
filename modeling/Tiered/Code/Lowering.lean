import Tiered.Code.Build
import Tiered.Code.NestedDefs

/-! Lowering: the unit of a function whose body stays within the subset that units can express. -/
namespace Tiered

/-- A unit with the definitions nested in its function. -/
structure Lowered where
  unit : CodeUnit
  functions : NestedDefs := {}

abbrev Lowering := EStateM Refusal Lowered

namespace Lowering

def build {α : Type} (step : Build α) : Lowering α := fun ⟨unit, functions⟩ =>
  match step unit with
  | .ok a unit => .ok a ⟨unit, functions⟩
  | .error e unit => .error e ⟨unit, functions⟩

def emit (i : Instr) : Lowering Unit :=
  build (.appendInstr i)

def register (fn : FunctionDef) : Lowering Unit :=
  modify fun ⟨unit, functions⟩ => ⟨unit, functions.register fn⟩

def refuse (fn : FunctionId) (construct : Construct) : Lowering Unit :=
  throw (.unsupported fn construct)

def codeSize : Lowering Nat :=
  return (← get).unit.size

end Lowering

open Lowering

def Ident.lowerLoad : Ident → Lowering Unit
  | .localVar name slot => do
    build (.tagLocal slot name)
    emit (.loadLocal slot)
  | .globalVar name slot => do
    build (.tagGlobal slot name)
    emit (.loadGlobal slot)
  | .universal name => do
    let i ← build (.internName name)
    emit (.loadUniversal i)

def Ident.lowerStore (fn : FunctionId) : Ident → Lowering Unit
  | .localVar name slot => do
    build (.tagLocal slot name)
    emit (.storeLocal slot)
  | .globalVar name slot => do
    build (.tagGlobal slot name)
    emit (.storeGlobal slot)
  | .universal _ => refuse fn .universalStore

/-- Integers of one signed byte are operands themselves; the pool holds the others. -/
def lowerInt (n : Int64) : Lowering Unit :=
  if -128 ≤ n.toInt ∧ n.toInt ≤ 127 then emit (.pushSmall n.toInt8)
  else do
    let i ← build (.internConstant (.int n))
    emit (.pushConstant i)

mutual

/-- Leaves the value of the expression on the stack. A call is checked for its number of arguments
before any of it is lowered. -/
def Expr.lower (fn : FunctionId) : Expr → Lowering Unit
  | .ident x => x.lowerLoad
  | .int n => lowerInt n
  | .str s => do
    let i ← build (.internConstant (.str s))
    emit (.pushConstant i)
  | .binary .add lhs rhs => do
    lhs.lower fn
    rhs.lower fn
    emit .add
  | .binary op _ _ => refuse fn (.operator op.symbol)
  | .call callee args =>
    if args.length ≤ 255 then do
      callee.lower fn
      lowerArgs fn args
      emit (.call (UInt8.ofNat args.length))
    else throw (.tooManyArguments args.length)
  | .list _ => refuse fn (.expression .list)

def lowerArgs (fn : FunctionId) : List Arg → Lowering Unit
  | [] => pure ()
  | .positional value :: rest => do
    value.lower fn
    lowerArgs fn rest
  | .keyword name _ :: _ => refuse fn (.keywordArgument name)

end

def lowerDefine (fn : FunctionId) (target : Ident) (nested : FunctionDef) : Lowering Unit := do
  register nested
  let i ← build (.internFunction nested.id)
  emit (.makeFunction i)
  target.lowerStore fn

mutual

/-- The value stack is empty before and after the code of a statement. -/
def Stmt.lower (fn : FunctionId) : Stmt → Lowering Unit
  | .ret (some e) => do
    e.lower fn
    emit .ret
  | .ret none => do
    emit .pushNone
    emit .ret
  | .eval e => do
    e.lower fn
    emit .pop
  | .define target nested => lowerDefine fn target nested
  | .forEach (.ident target) collection body => do
    collection.lower fn
    emit .getIter
    let start ← codeSize
    let exit ← build (.openJump .forIter)
    target.lowerStore fn
    lowerBlock fn body
    build (.jumpBack start)
    build (.closeJump exit)
  | .forEach target _ _ => refuse fn (.loopTarget target.kind)
  | .branch _ _ _ => refuse fn (.statement .branch)
  | .assign _ _ => refuse fn (.statement .assign)
  | .pass => refuse fn (.statement .pass)

def lowerBlock (fn : FunctionId) : List Stmt → Lowering Unit
  | [] => pure ()
  | s :: rest => do
    s.lower fn
    lowerBlock fn rest

end

/-- The unit before its first instruction: parameters name the first local slots. -/
def FunctionDef.blankUnit (fn : FunctionDef) : CodeUnit where
  name := fn.name
  function := fn.id
  localCount := fn.localCount
  localNames :=
    fn.params.zipIdx.foldl (fun names p => tagSlot names (UInt16.ofNat p.2) p.1) #[]

/-- Lowers a whole function or refuses it. A body that ends without a return yields None. -/
def FunctionDef.lower (fn : FunctionDef) : Except Refusal Lowered :=
  let lowering : Lowering Unit := do
    lowerBlock fn.id fn.body
    emit .pushNone
    emit .ret
  match lowering { unit := fn.blankUnit } with
  | .ok _ lowered => .ok lowered
  | .error e _ => .error e

end Tiered
