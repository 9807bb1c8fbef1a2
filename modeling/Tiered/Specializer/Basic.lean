import Tiered.Settings
import Tiered.Specializer.Cache
import Tiered.Specializer.Loader

/-! The specializer: lowers and loads functions, and remembers each outcome, failures included. -/
namespace Tiered

structure Specializer where
  settings : SpecializerSettings
  loader : Loader
  cache : Cache (Except Refusal VerifiedUnit)
  compiles : Nat := 0
  failures : Nat := 0
  hits : Nat := 0
  evictions : Nat := 0

structure Stats where
  compiles : Nat
  failures : Nat
  cacheHits : Nat
  cachedFunctions : Nat
  evictions : Nat
  unitsLoaded : Nat
  rejected : Nat
deriving DecidableEq

namespace Specializer

def ofSettings (settings : SpecializerSettings) : Specializer where
  settings := settings
  loader := { logDisassembly := settings.logDisassembly }
  cache := { capacity := settings.cacheSize }

/-- Lowers and loads, past the cache. A disabled specializer refuses without counting. -/
def compile (s : Specializer) (fn : FunctionDef) : Attempt Specializer :=
  if !s.settings.enabled then ⟨.error .disabled, s, []⟩
  else
    let s := { s with compiles := s.compiles + 1 }
    match fn.lower with
    | .error e => ⟨.error e, { s with failures := s.failures + 1 }, []⟩
    | .ok code =>
      let attempt := s.loader.load code
      let s := { s with loader := attempt.after }
      match attempt.result with
      | .error e => ⟨.error e, { s with failures := s.failures + 1 }, attempt.events⟩
      | .ok unit => ⟨.ok unit, s, attempt.events ++ [.specialized fn.name unit.name]⟩

/-- A refusal is reported where it is first met, unless specialization is switched off. -/
def fallbackEvents (fn : FunctionDef) : Except Refusal VerifiedUnit → List Event
  | .ok _ | .error .disabled => []
  | .error e => [.fellBack fn.name fn.id e]

/-- The outcome for a function: the remembered one, or else that of compiling it now. Room in the
cache is made before the function is compiled. -/
def lookup (s : Specializer) (fn : FunctionDef) : Attempt Specializer :=
  match s.cache.find? fn.id with
  | some result => ⟨result, { s with cache := s.cache.touch fn.id result, hits := s.hits + 1 }, []⟩
  | none =>
    let attempt := s.compile fn
    let victim := s.cache.victim?
    { result := attempt.result
      after :=
        { attempt.after with
          cache := s.cache.insert fn.id attempt.result
          evictions := s.evictions + victim.toList.length }
      events :=
        victim.toList.map .evicted ++ attempt.events ++ fallbackEvents fn attempt.result }

def stats (s : Specializer) : Stats where
  compiles := s.compiles
  failures := s.failures
  cacheHits := s.hits
  cachedFunctions := s.cache.entries.length
  evictions := s.evictions
  unitsLoaded := s.loader.loaded
  rejected := s.loader.rejected

end Specializer

end Tiered
