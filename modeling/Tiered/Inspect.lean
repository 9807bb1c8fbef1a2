import Tiered.Exec.Thread

/-! Texts that lay the parts of a run open for inspection. -/
namespace Tiered

/-- A record in braces: its name, then its fields in order. -/
def recordText (name : String) (fields : List (String × String)) : String :=
  name ++ " \x7b " ++ ", ".intercalate (fields.map fun f => f.1 ++ ": " ++ f.2) ++ " \x7d"

def slotText : Option Value → String
  | some v => "Some(" ++ v.repr ++ ")"
  | none => "None"

def Builtin.inspect (b : Builtin) : String :=
  recordText "Builtin" [("name", Text.quote b.name)]

def Callable.inspect (c : Callable) : String :=
  recordText "Callable"
    [("name", Text.quote c.qualifiedName), ("id", s!"FunctionId({c.fn.id})"),
      ("code", Text.quote c.code.describe)]

def Frame.inspect (frame : Frame) (w : World) : String :=
  let name := ((w.callable? frame.function).map (·.qualifiedName)).getD frame.function.name
  recordText "Frame"
    [("function", Text.quote name),
      ("locals", "[" ++ ", ".intercalate (frame.locals.toList.map slotText) ++ "]")]

def boolText (b : Bool) : String :=
  if b then "true" else "false"

def ExecSettings.inspect (settings : ExecSettings) : String :=
  recordText "ExecConfig"
    [("max_call_depth", toString settings.maxCallDepth), ("trace", boolText settings.trace)]

def Thread.inspect (t : Thread) : String :=
  recordText "Thread"
    [("config", t.settings.inspect), ("depth", toString t.depth),
      ("specializing", boolText t.specializing)]

end Tiered
