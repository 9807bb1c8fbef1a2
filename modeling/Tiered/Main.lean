import Tiered.Demo

/-! The command line of the demonstration. -/
open Tiered

def main (args : List String) : IO UInt32 := do
  let env ← Environment.variableNames.filterMapM fun name => do
    return (← IO.getEnv name).map fun text => (name, text.toUTF8)
  let transcript := Demo.run args env
  for line in transcript.out do IO.println line
  for line in transcript.err do IO.eprintln line
  return transcript.code
