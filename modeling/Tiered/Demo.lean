import Tiered.Exec.Call
import Tiered.Exec.Thread

/-! The demonstration: sample functions run in both engines, and their results side by side. -/
namespace Tiered.Demo

def version : String := "0.1.0"

def usage : List String :=
  ["hotpath v" ++ version,
    "",
    "USAGE:",
    "    hotpath [OPTIONS]",
    "",
    "Runs a set of sample functions interpreted and specialized and",
    "compares the results.",
    "",
    "OPTIONS:",
    "    -h, --help           Print this help message",
    "    -v, --version        Print version information",
    "    --disassemble        Print the compiled unit of every specialized sample",
    "",
    "ENVIRONMENT:",
    "    RUST_LOG                 Log filter, e.g. hotpath=debug",
    "    HOTPATH_SPECIALIZE       0 to run everything interpreted",
    "    HOTPATH_LOG_DISASSEMBLY  1 to log unit disassembly at debug level",
    "    HOTPATH_CACHE_SIZE       Specialized functions kept in the cache",
    "    HOTPATH_TRACE            1 to trace every executed instruction"]

inductive Command where
  | help
  | version
  | unknown (option : String)
  | samples (disassemble : Bool)
deriving DecidableEq

/-- Options count from left to right; the first that ends the matter decides. -/
def Command.ofArgs (disassemble : Bool) : List String → Command
  | [] => samples disassemble
  | arg :: rest =>
    if arg = "-h" ∨ arg = "--help" then help
    else if arg = "-v" ∨ arg = "--version" then version
    else if arg = "--disassemble" then ofArgs true rest
    else unknown arg

structure Sample where
  description : String
  fn : FunctionDef
  args : List Value

def addTwo : FunctionDef :=
  .make 1 "add_two" [] none [.ret (some (.binary .add (.int 1) (.int 2)))]

def showAll : FunctionDef :=
  let x := Ident.localVar "x" 1
  let shown := Expr.call (.ident (.universal "str")) [.positional (.ident x)]
  .make 2 "show_all" ["xs"] (some 2)
    [.forEach (.ident x) (.ident (.localVar "xs" 0))
      [.eval (.call (.ident (.universal "print"))
        [.positional (.binary .add (.str "item ") shown)])]]

def one : FunctionDef :=
  .make 3 "one" [] none [.ret (some (.int 1))]

def makeOne : FunctionDef :=
  .make 4 "make_one" [] (some 1)
    [.define (.localVar "one" 0) one, .ret (some (.ident (.localVar "one" 0)))]

def total : FunctionDef :=
  let t := Ident.localVar "t" 1
  let x := Ident.localVar "x" 2
  .make 5 "total" ["xs"] (some 3)
    [.assign t (.int 0),
      .forEach (.ident x) (.ident (.localVar "xs" 0))
        [.assign t (.binary .add (.ident t) (.ident x))],
      .ret (some (.ident t))]

def numbers : Value :=
  .list [.int 10, .int 20, .int 30]

def samples : List Sample :=
  [⟨"literal arithmetic", addTwo, []⟩,
    ⟨"loop with builtin calls", showAll, [numbers]⟩,
    ⟨"nested definition", makeOne, []⟩,
    ⟨"assignment (interpreted fallback)", total, [numbers]⟩]

/-- The samples need no builtins of a host. -/
def noHost : Host := fun name _ _ =>
  .raise (.undefinedName name)

/-- Calls a function value on a thread of its own; the text shows the value or what went wrong. -/
def runSample (settings : ExecSettings) (specializing : Bool) (f : FunctionRef)
    (args : List Value) : Run World String := fun w =>
  let thread : Thread := { settings := settings, specializing := specializing }
  let r := thread.run w (applyValue settings noHost ampleFuel (.function f) { positional := args })
  let text :=
    match r.result with
    | .ok v => v.display
    | .error (.raised e) => "error: " ++ e.message
    | .error .outOfFuel => "error: out of fuel"
  .ok text r.world

/-- The listing of a sample, or why it has none. -/
def outcomeText : Except Refusal VerifiedUnit → String
  | .ok unit => unit.code.unit.text
  | .error e => "   not specialized: " ++ e.message

/-- Runs one sample in both engines; the answer says whether they agree. -/
def compareEngines (settings : ExecSettings) (disassemble : Bool) (s : Sample) :
    Run World Bool := do
  World.print s!"== {s.fn.name} ({s.description})"
  let interpreted ← World.allocFunction s.fn .interpreted
  let code ← World.chooseCode s.fn
  let specialized ← World.allocFunction s.fn code
  let expected ← runSample settings false interpreted s.args
  let actual ← runSample settings true specialized s.args
  World.print ("   interpreted: " ++ expected)
  World.print ("   " ++ code.describe ++ ": " ++ actual)
  if expected ≠ actual then World.print "   MISMATCH"
  if disassemble then
    if let some specializer := (← get).specializer then
      World.print (outcomeText (← World.lookup specializer s.fn))
  return expected = actual

def statsText (s : Stats) : String :=
  s!"compiles: {s.compiles}  failures: {s.failures}  cache hits: {s.cacheHits}  " ++
    s!"evictions: {s.evictions}  units loaded: {s.unitsLoaded}"

/-- Runs all samples, then prints the counters. -/
def compareAll (settings : ExecSettings) (disassemble : Bool) : Run World Bool := do
  let agreed ← samples.mapM (compareEngines settings disassemble)
  World.print ""
  if let some specializer := (← get).specializer then
    World.print (statsText specializer.stats)
  return agreed.all id

structure Transcript where
  code : UInt32
  out : List String := []
  err : List String := []

def run (args : List String) (env : Environment) : Transcript :=
  match Command.ofArgs false args with
  | .help => { code := 0, err := usage }
  | .version => { code := 0, out := ["hotpath " ++ version] }
  | .unknown option => { code := 1, err := ["Error: Unknown option: " ++ option, ""] ++ usage }
  | .samples disassemble =>
    let world : World := { specializer := some (Specializer.ofSettings (.ofEnv env)) }
    match compareAll (.ofEnv env) disassemble world with
    | .ok agreed w => { code := if agreed then 0 else 1, out := w.printed.toList }
    | .error _ w => { code := 1, out := w.printed.toList }

end Tiered.Demo
