import Tiered.Program
import Tiered.Text.Hex

/-! Causes of failure of a running program, and their wording. -/
namespace Tiered

/-- What the stack machine finds wrong with the code it runs. -/
inductive Fault where
  | offEnd
  | badOpcode (byte : UInt8)
  | truncated
  | valueUnderflow
  | iteratorUnderflow
  | constantRange (index : UInt16)
  | nameRange (index : UInt16)
  | functionRange (index : UInt16)
deriving DecidableEq

def Fault.message : Fault → String
  | offEnd => "execution fell off the end of the unit"
  | badOpcode b => "invalid opcode 0x" ++ Text.hex 2 b.toNat
  | truncated => "truncated immediate"
  | valueUnderflow => "value stack underflow"
  | iteratorUnderflow => "iterator stack underflow"
  | constantRange i => s!"constant #{i} out of range"
  | nameRange i => s!"name #{i} out of range"
  | functionRange i => s!"function #{i} not in function table"

/-- Failures that no well-formed program reaches. -/
inductive InternalError where
  | slotRange (slot : UInt16) (slots : Nat)
  | universalStore (name : String)
  | badTarget (kind : ExprKind)
  | fault (unit : String) (ip : Nat) (cause : Fault)
  | reported (text : String)
deriving DecidableEq

def InternalError.message : InternalError → String
  | slotRange slot slots => s!"local slot {slot} out of range ({slots} slots)"
  | universalStore name => s!"cannot assign universal name '{name}'"
  | badTarget kind => "cannot assign to " ++ kind.name
  | fault unit ip cause => unit ++ " @" ++ Text.hex 4 ip ++ ": " ++ cause.message
  | reported text => text

inductive Failure where
  | notCallable (typeName : String)
  | unsupportedOperands (op lhs rhs : String)
  | integerOverflow
  | notIterable (typeName : String)
  | unboundLocal (name : String)
  | unboundGlobal (name : String)
  | undefinedName (name : String)
  | arityMismatch (function : String) (expected got : Nat)
  | unexpectedKeyword (function name : String)
  | duplicateArgument (function name : String)
  | keywordsNotAccepted (function : String)
  | missingArgument (function name : String)
  | callDepthExceeded (limit : Nat)
  | unpackMismatch (expected got : Nat)
  | builtin (function text : String)
  | internal (cause : InternalError)
deriving DecidableEq

def Failure.message : Failure → String
  | notCallable t => s!"invalid call of non-function ({t})"
  | unsupportedOperands op lhs rhs => s!"unsupported binary operation: {lhs} {op} {rhs}"
  | integerOverflow => "integer overflow"
  | notIterable t => s!"type '{t}' is not iterable"
  | unboundLocal n => s!"local variable '{n}' referenced before assignment"
  | unboundGlobal n => s!"global variable '{n}' referenced before assignment"
  | undefinedName n => s!"name '{n}' is not defined"
  | arityMismatch f expected got =>
    s!"{f}() takes {expected} positional argument(s) but {got} were given"
  | unexpectedKeyword f n => s!"{f}() got an unexpected keyword argument '{n}'"
  | duplicateArgument f n => s!"{f}() got multiple values for parameter '{n}'"
  | keywordsNotAccepted f => s!"{f}() does not accept keyword arguments"
  | missingArgument f n => s!"{f}() missing argument for parameter '{n}'"
  | callDepthExceeded limit => s!"call depth exceeded (limit {limit})"
  | unpackMismatch expected got =>
    let quantity := if expected < got then "many" else "few"
    s!"too {quantity} values to unpack (got {got}, want {expected})"
  | builtin f text => f ++ ": " ++ text
  | internal cause => "internal error: " ++ cause.message

def Failure.kind : Failure → String
  | notCallable _ => "NotCallable"
  | unsupportedOperands _ _ _ => "UnsupportedOperands"
  | integerOverflow => "IntegerOverflow"
  | notIterable _ => "NotIterable"
  | unboundLocal _ => "UnboundLocal"
  | unboundGlobal _ => "UnboundGlobal"
  | undefinedName _ => "UndefinedName"
  | arityMismatch _ _ _ => "ArityMismatch"
  | unexpectedKeyword _ _ => "UnexpectedKeyword"
  | duplicateArgument _ _ => "DuplicateArgument"
  | keywordsNotAccepted _ => "KeywordsNotAccepted"
  | missingArgument _ _ => "MissingArgument"
  | callDepthExceeded _ => "CallDepthExceeded"
  | unpackMismatch _ _ => "UnpackMismatch"
  | builtin _ _ => "Builtin"
  | internal _ => "Internal"

end Tiered
