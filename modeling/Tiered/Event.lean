import Tiered.Code.Flaw

/-! Events: what a run reports to whoever listens, next to its results. -/
namespace Tiered

inductive Event where
  | statement (kind : StmtKind)
  | callBuiltin (name : String) (argc : Nat)
  | callFunction (function : String) (specialized : Bool) (depth : Nat)
  | instruction (unit : String) (ip : Nat) (text : String) (stackDepth loops : Nat)
  | makeFunction (unit function : String)
  | unitRejected (error : LocatedFlaw)
  | unitLoaded (unit : String) (bytes instructions maxStack nested : Nat)
  | unitListing (text : String)
  | specialized (function unit : String)
  | fellBack (function : String) (id : FunctionId) (error : Refusal)
  | evicted (id : FunctionId)

inductive Level where
  | trace | debug | warn | error
deriving DecidableEq

def Level.name : Level → String
  | trace => "TRACE"
  | debug => "DEBUG"
  | warn => "WARN"
  | error => "ERROR"

inductive Field where
  | number (n : Nat)
  | flag (b : Bool)
  | text (s : String)

namespace Event

/-- The part of the program that reports the event. -/
def target : Event → String
  | statement _ => "hotpath::eval"
  | callBuiltin _ _ | callFunction _ _ _ => "hotpath::runtime::call"
  | instruction _ _ _ _ _ => "hotpath::vm::step"
  | makeFunction _ _ => "hotpath::vm::closure"
  | unitRejected _ | unitLoaded _ _ _ _ _ => "hotpath::loader"
  | unitListing _ => "hotpath::loader::disasm"
  | specialized _ _ | fellBack _ _ _ | evicted _ => "hotpath::specializer"

def level : Event → Level
  | statement _ | callBuiltin _ _ | callFunction _ _ _ | instruction _ _ _ _ _
  | makeFunction _ _ => .trace
  | unitLoaded _ _ _ _ _ | unitListing _ | specialized _ _ | evicted _ => .debug
  | fellBack _ _ _ => .warn
  | unitRejected _ => .error

/-- Every event but the execution of an instruction carries a message. -/
def message? : Event → Option String
  | statement _ => some "exec"
  | callBuiltin _ _ => some "call builtin"
  | callFunction _ _ _ => some "call function"
  | instruction _ _ _ _ _ => none
  | makeFunction _ _ => some "make function"
  | unitRejected _ => some "unit failed verification"
  | unitLoaded _ _ _ _ _ => some "unit loaded"
  | unitListing text => some ("\n" ++ text)
  | specialized _ _ => some "specialized"
  | fellBack _ _ _ => some "falling back to interpreter"
  | evicted _ => some "cache entry evicted"

def fields : Event → List (String × Field)
  | statement kind => [("kind", .text kind.name)]
  | callBuiltin name argc => [("builtin", .text name), ("argc", .number argc)]
  | callFunction function isSpecialized depth =>
    [("function", .text function), ("specialized", .flag isSpecialized), ("depth", .number depth)]
  | instruction unit ip text stackDepth loops =>
    [("unit", .text unit), ("ip", .number ip), ("mnemonic", .text text),
      ("stack_depth", .number stackDepth), ("loops", .number loops)]
  | makeFunction unit function => [("unit", .text unit), ("function", .text function)]
  | unitRejected e =>
    [("unit", .text e.unit), ("offset", .number e.offset), ("reason", .text e.flaw.message)]
  | unitLoaded unit bytes instructions maxStack nested =>
    [("unit", .text unit), ("bytes", .number bytes), ("instructions", .number instructions),
      ("max_stack", .number maxStack), ("nested", .number nested)]
  | unitListing _ => []
  | specialized function unit => [("function", .text function), ("unit", .text unit)]
  | fellBack function id error =>
    [("function", .text function), ("id", .number id), ("error", .text error.message)]
  | evicted id => [("evicted", .number id)]

end Event

end Tiered
