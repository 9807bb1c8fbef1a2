import Tiered.Proofs.Encoding
import Tiered.Proofs.Occurrences

/-! The shape of lowered code: which sequences of instructions stand for an expression, a statement
or a block, given the pools of the unit they belong to. -/
namespace Tiered

def Ident.storeInstr? : Ident → Option Instr
  | .localVar _ slot => some (.storeLocal slot)
  | .globalVar _ slot => some (.storeGlobal slot)
  | .universal _ => none

mutual

inductive ExprCode (p : Lowered) : Expr → List Instr → Prop
  | loadLocal {name : String} {slot : UInt16} :
      ExprCode p (.ident (.localVar name slot)) [.loadLocal slot]
  | loadGlobal {name : String} {slot : UInt16} :
      ExprCode p (.ident (.globalVar name slot)) [.loadGlobal slot]
  | loadUniversal {name : String} {i : UInt16} (hi : p.unit.nameAt? i = some name) :
      ExprCode p (.ident (.universal name)) [.loadUniversal i]
  | small {n : Int64} {k : Int8} (hk : k.toInt64 = n) : ExprCode p (.int n) [.pushSmall k]
  | int {n : Int64} {i : UInt16} (hi : p.unit.constantAt? i = some (.int n)) :
      ExprCode p (.int n) [.pushConstant i]
  | str {s : String} {i : UInt16} (hi : p.unit.constantAt? i = some (.str s)) :
      ExprCode p (.str s) [.pushConstant i]
  | add {l r : Expr} {is js : List Instr} (hl : ExprCode p l is) (hr : ExprCode p r js) :
      ExprCode p (.binary .add l r) (is ++ (js ++ [.add]))
  | call {f : Expr} {args : List Arg} {is js : List Instr} {n : UInt8} (hf : ExprCode p f is)
      (ha : ArgsCode p args js) (hn : n.toNat = args.length) :
      ExprCode p (.call f args) (is ++ (js ++ [.call n]))

inductive ArgsCode (p : Lowered) : List Arg → List Instr → Prop
  | nil : ArgsCode p [] []
  | cons {e : Expr} {rest : List Arg} {is js : List Instr} (he : ExprCode p e is)
      (hr : ArgsCode p rest js) : ArgsCode p (.positional e :: rest) (is ++ js)

end

mutual

/-- Distances of jumps count from the end of the jump: a loop leaves past its jump back, which leads
to the head of the loop. -/
inductive StmtCode (p : Lowered) : Stmt → List Instr → Prop
  | ret {e : Expr} {is : List Instr} (he : ExprCode p e is) :
      StmtCode p (.ret (some e)) (is ++ [.ret])
  | retNone : StmtCode p (.ret none) [.pushNone, .ret]
  | eval {e : Expr} {is : List Instr} (he : ExprCode p e is) : StmtCode p (.eval e) (is ++ [.pop])
  | define {target : Ident} {fn : FunctionDef} {i : UInt16} {store : Instr}
      (hi : p.unit.functionAt? i = some fn.id) (hf : (p.functions.get? fn.id).isSome)
      (hs : target.storeInstr? = some store) :
      StmtCode p (.define target fn) [.makeFunction i, store]
  | forEach {target : Ident} {collection : Expr} {body : List Stmt} {is js : List Instr}
      {store : Instr} {exit back : Int16} (hc : ExprCode p collection is)
      (hs : target.storeInstr? = some store) (hb : BlockCode p body js)
      (hexit : exit.toInt = store.size + codeSize js + 3)
      (hback : back.toInt = -(3 + store.size + codeSize js + 3 : Int)) :
      StmtCode p (.forEach (.ident target) collection body)
        (is ++ (.getIter :: .forIter exit :: store :: (js ++ [.jump back])))

inductive BlockCode (p : Lowered) : List Stmt → List Instr → Prop
  | nil : BlockCode p [] []
  | cons {s : Stmt} {rest : List Stmt} {is js : List Instr} (hs : StmtCode p s is)
      (hr : BlockCode p rest js) : BlockCode p (s :: rest) (is ++ js)

end

end Tiered
