/-! Resolved programs: every name in a function body already carries the slot it is bound to. -/
namespace Tiered

/-- Identity of a definition. No two definitions of one program share it. -/
abbrev FunctionId := Nat

/-- A name where it is used: one of the builtins, a slot of the executing function value, or a slot
of the executing call. -/
inductive Ident where
  | universal (name : String)
  | globalVar (name : String) (slot : UInt16)
  | localVar (name : String) (slot : UInt16)
deriving DecidableEq

inductive BinaryOp where
  | add | sub | mul | eq | lt
deriving DecidableEq

mutual

inductive Expr where
  | ident (x : Ident)
  | int (n : Int64)
  | str (s : String)
  | binary (op : BinaryOp) (lhs rhs : Expr)
  | call (callee : Expr) (args : List Arg)
  | list (items : List Expr)

inductive Arg where
  | positional (value : Expr)
  | keyword (name : String) (value : Expr)

end

mutual

inductive Stmt where
  | ret (value : Option Expr)
  | eval (e : Expr)
  | define (target : Ident) (fn : FunctionDef)
  | forEach (target collection : Expr) (body : List Stmt)
  | branch (condition : Expr) (thenBody elseBody : List Stmt)
  | assign (target : Ident) (value : Expr)
  | pass

/-- A resolved definition. The first local slots hold the parameters, in order. -/
structure FunctionDef where
  id : FunctionId
  name : String
  params : List String
  localCount : UInt16
  body : List Stmt

end

namespace Ident

def name : Ident → String
  | universal n | globalVar n _ | localVar n _ => n

def scope : Ident → String
  | universal _ => "universal"
  | globalVar _ _ => "global"
  | localVar _ _ => "local"

end Ident

namespace BinaryOp

def all : List BinaryOp := [add, sub, mul, eq, lt]

def symbol : BinaryOp → String
  | add => "+"
  | sub => "-"
  | mul => "*"
  | eq => "=="
  | lt => "<"

def ofSymbol? (s : String) : Option BinaryOp :=
  all.find? (·.symbol == s)

end BinaryOp

inductive ExprKind where
  | ident | int | str | binary | call | list
deriving DecidableEq

namespace ExprKind

def all : List ExprKind := [ident, int, str, binary, call, list]

def name : ExprKind → String
  | ident => "Identifier"
  | int => "IntLiteral"
  | str => "StringLiteral"
  | binary => "BinaryOperator"
  | call => "Call"
  | list => "ListExpr"

def ofName? (s : String) : Option ExprKind :=
  all.find? (·.name == s)

end ExprKind

def Expr.kind : Expr → ExprKind
  | ident _ => .ident
  | int _ => .int
  | str _ => .str
  | binary _ _ _ => .binary
  | call _ _ => .call
  | list _ => .list

inductive StmtKind where
  | ret | eval | define | forEach | branch | assign | pass
deriving DecidableEq

namespace StmtKind

def all : List StmtKind := [ret, eval, define, forEach, branch, assign, pass]

def name : StmtKind → String
  | ret => "Return"
  | eval => "Expression"
  | define => "Def"
  | forEach => "For"
  | branch => "If"
  | assign => "Assignment"
  | pass => "Pass"

def ofName? (s : String) : Option StmtKind :=
  all.find? (·.name == s)

end StmtKind

def Stmt.kind : Stmt → StmtKind
  | ret _ => .ret
  | eval _ => .eval
  | define _ _ => .define
  | forEach _ _ _ => .forEach
  | branch _ _ _ => .branch
  | assign _ _ => .assign
  | pass => .pass

/-- A definition with a local slot for each parameter, and as many more as `locals` asks for. Slot
numbers have sixteen bits. -/
def FunctionDef.make (id : FunctionId) (name : String) (params : List String)
    (locals : Option UInt16) (body : List Stmt) : FunctionDef where
  id := id
  name := name
  params := params
  localCount :=
    match locals with
    | none => UInt16.ofNat (min params.length 0xffff)
    | some n => max n (UInt16.ofNat params.length)
  body := body

/-- The same definition: identities are never shared. -/
def FunctionDef.same (f g : FunctionDef) : Bool :=
  f.id == g.id

end Tiered
