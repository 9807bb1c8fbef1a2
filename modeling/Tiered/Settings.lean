import Tiered.Text.Blank

/-! Settings, and how an environment of variables gives them. -/
namespace Tiered

structure ExecSettings where
  maxCallDepth : Nat := 1000
  trace : Bool := false
deriving DecidableEq

/-- Settings of a specializer; its cache holds at least one entry. -/
structure SpecializerSettings where
  enabled : Bool := true
  logDisassembly : Bool := false
  cacheSize : Nat := 4096
  cacheSize_pos : 0 < cacheSize := by decide
deriving DecidableEq

/-- Variables and the bytes they are set to. -/
abbrev Environment := List (String × ByteArray)

namespace Environment

/-- A variable whose bytes are not valid text counts as unset. -/
def text? (env : Environment) (name : String) : Option String :=
  (env.lookup name).bind fun bytes => String.fromUTF8? bytes

/-- A decimal number below `2 ^ 64`, with at most one plus sign before it. -/
def number? (s : String) : Option Nat :=
  let digits :=
    match s.toList with
    | '+' :: rest => rest
    | cs => cs
  if digits.isEmpty || !digits.all Char.isDigit then none
  else
    let n := digits.foldl (fun n c => 10 * n + (c.toNat - '0'.toNat)) 0
    if n < UInt64.size then some n else none

/-- White space around a number is ignored; what is no number counts as unset. -/
def number (env : Environment) (name : String) (default : Nat) : Nat :=
  ((env.text? name).bind fun s => number? (Text.trim s)).getD default

/-- Four words switch a flag on and four off, in any mixture of ASCII case. -/
def flag? (s : String) : Option Bool :=
  let word := String.ofList (s.toList.map Char.toLower)
  if ["1", "true", "yes", "on"].contains word then some true
  else if ["0", "false", "no", "off"].contains word then some false
  else none

def flag (env : Environment) (name : String) (default : Bool) : Bool :=
  ((env.text? name).bind fun s => flag? (Text.trim s)).getD default

def variableNames : List String :=
  ["HOTPATH_MAX_CALL_DEPTH", "HOTPATH_TRACE", "HOTPATH_SPECIALIZE", "HOTPATH_LOG_DISASSEMBLY",
    "HOTPATH_CACHE_SIZE"]

end Environment

def ExecSettings.ofEnv (env : Environment) : ExecSettings where
  maxCallDepth := env.number "HOTPATH_MAX_CALL_DEPTH" ({} : ExecSettings).maxCallDepth
  trace := env.flag "HOTPATH_TRACE" ({} : ExecSettings).trace

/-- The same settings with another size of cache, if that is positive. -/
def SpecializerSettings.withCacheSize (settings : SpecializerSettings) (n : Nat) :
    SpecializerSettings :=
  if h : 0 < n then { settings with cacheSize := n, cacheSize_pos := h } else settings

def SpecializerSettings.ofEnv (env : Environment) : SpecializerSettings :=
  let base : SpecializerSettings :=
    { enabled := env.flag "HOTPATH_SPECIALIZE" ({} : SpecializerSettings).enabled
      logDisassembly :=
        env.flag "HOTPATH_LOG_DISASSEMBLY" ({} : SpecializerSettings).logDisassembly }
  base.withCacheSize (env.number "HOTPATH_CACHE_SIZE" base.cacheSize)

end Tiered
