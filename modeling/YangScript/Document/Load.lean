import YangScript.Document.State

/-!
# Loading a module

The machine runs over the stream until the module is complete, a step fails, or the stream ends.
A complete module is the answer whatever follows it.
-/

set_option autoImplicit false

namespace YangScript

open Xml

namespace State

def run : Stream → State → Except LoadError Module
  | _, .complete m => .ok m
  | .finished, s => s.finish
  | .fault f, _ => .error (.markup f)
  | .event e rest, s =>
    match s.step e with
    | .error cause => .error cause
    | .ok next => run rest next

theorem run_complete (stream : Stream) (m : Module) : run stream (.complete m) = .ok m := by
  cases stream <;> rfl

end State

def Module.ofDocument (document : String) : Except LoadError Module :=
  State.run (Stream.ofDocument document) .waiting

end YangScript
