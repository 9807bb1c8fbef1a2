import Tiered.Code.Opcode
import Tiered.Program
import Tiered.Text.Hex

/-! What can be wrong with a unit, and why a function cannot be specialized. -/
namespace Tiered

/-- Values and iterators on the two stacks of the machine. -/
structure Depth where
  values : Nat
  loops : Nat
deriving DecidableEq

inductive Pool where
  | constants | names | locals | functions
deriving DecidableEq

def Pool.name : Pool → String
  | constants => "constants"
  | names => "names"
  | locals => "locals"
  | functions => "functions"

inductive Flaw where
  | empty
  | unknownOpcode (byte : UInt8)
  | truncated (op : Opcode)
  | operandRange (op : Opcode) (index size : Nat) (pool : Pool)
  | missingFunction (id : FunctionId)
  | badTarget (op : Opcode) (target : Int)
  | underflow (op : Opcode) (pops held : Nat)
  | noIterator
  | offEnd
  | joinMismatch (known arriving : Depth)
  | described (text : String)
deriving DecidableEq

def Flaw.message : Flaw → String
  | empty => "empty unit"
  | unknownOpcode b => "unknown opcode 0x" ++ Text.hex 2 b.toNat
  | truncated op => "truncated immediate for " ++ op.mnemonic
  | operandRange op index size pool =>
    s!"{op.mnemonic} index {index} out of range ({size} {pool.name})"
  | missingFunction id => s!"function #{id} missing from function table"
  | badTarget op target => s!"{op.mnemonic} target {target} is not an instruction boundary"
  | underflow op pops held => s!"{op.mnemonic} needs {pops} value(s), stack holds {held}"
  | noIterator => "for_iter without an active iterator"
  | offEnd => "execution falls off the end of the unit"
  | joinMismatch known arriving =>
    s!"inconsistent stack at join: {known.values}/{known.loops} vs " ++
      s!"{arriving.values}/{arriving.loops} (values/loops)"
  | described text => text

structure LocatedFlaw where
  unit : String
  offset : Nat
  flaw : Flaw
deriving DecidableEq

def LocatedFlaw.message (e : LocatedFlaw) : String :=
  e.unit ++ " @" ++ Text.hex 4 e.offset ++ ": " ++ e.flaw.message

/-- A part of a function body that lowering does not cover. -/
inductive Construct where
  | statement (kind : StmtKind)
  | expression (kind : ExprKind)
  | operator (symbol : String)
  | keywordArgument (name : String)
  | loopTarget (kind : ExprKind)
  | universalStore
deriving DecidableEq

def Construct.description : Construct → String
  | statement kind => "statement " ++ kind.name
  | expression kind => "expression " ++ kind.name
  | operator symbol => s!"binary operator '{symbol}'"
  | keywordArgument name => s!"keyword argument '{name}'"
  | loopTarget kind => "for-loop target " ++ kind.name
  | universalStore => "assignment to universal name"

/-- Why a function stays interpreted. -/
inductive Refusal where
  | unsupported (function : FunctionId) (construct : Construct)
  | verification (error : LocatedFlaw)
  | tooManyConstants
  | tooManyNames
  | tooManyFunctions
  | tooManyArguments (count : Nat)
  | jumpTooFar
  | disabled
deriving DecidableEq

namespace Refusal

def message : Refusal → String
  | unsupported id construct =>
    s!"unsupported construct in function #{id}: " ++ construct.description
  | verification e => "artifact verification failed: " ++ e.message
  | tooManyConstants => "too many constants (max 65535)"
  | tooManyNames => "too many universal names (max 65535)"
  | tooManyFunctions => "too many nested definitions (max 65535)"
  | tooManyArguments n => s!"too many call arguments: {n} (max 255)"
  | jumpTooFar => "jump offset out of range"
  | disabled => "specialization disabled"

def kind : Refusal → String
  | unsupported _ _ => "UnsupportedConstruct"
  | verification _ => "ArtifactVerification"
  | tooManyConstants => "TooManyConstants"
  | tooManyNames => "TooManyNames"
  | tooManyFunctions => "TooManyFunctions"
  | tooManyArguments _ => "TooManyArguments"
  | jumpTooFar => "JumpTooFar"
  | disabled => "Disabled"

/-- Only a unit that verification refuses points at a fault of lowering itself. -/
def isInternal : Refusal → Bool
  | verification _ => true
  | _ => false

end Refusal

end Tiered
