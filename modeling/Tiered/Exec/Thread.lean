import Tiered.Exec.Frame

/-! Threads of execution that share one world. -/
namespace Tiered

/-- A thread has settings and a call depth of its own, and may carry the world's specializer. -/
structure Thread where
  settings : ExecSettings
  specializing : Bool
  depth : Nat := 0

namespace Thread

structure Result (α : Type) where
  result : Except Stop α
  thread : Thread
  world : World

/-- Runs `x` at the depth of the thread. The specializer is out of sight of a thread that does not
carry it, and waits unchanged. -/
def run {α : Type} (t : Thread) (w : World) (x : Run World α) : Result α :=
  let visible := if t.specializing then w.specializer else none
  let finish (r : Except Stop α) (after : World) : Result α :=
    { result := r
      thread := { t with depth := after.depth }
      world :=
        { after with
          depth := w.depth
          specializer := if t.specializing then after.specializer else w.specializer } }
  match x { w with depth := t.depth, specializer := visible } with
  | .ok a after => finish (.ok a) after
  | .error e after => finish (.error e) after

end Thread

end Tiered
