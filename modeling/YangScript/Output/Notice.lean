import YangScript.Output.ScriptType
import YangScript.Schema.Check

/-!
# Notices

Whatever is written with a vaguer type than the schema asks for, or not written at all, gives
rise to a notice. Notices come in the order in which the tree is walked.
-/

set_option autoImplicit false

namespace YangScript

inductive Level where
  | debug
  | info
  | warn
  | error
  deriving DecidableEq, Repr

inductive Notice where
  | unhandledEntry (kind : EntryKind) (name : String) (fallback : Primitive)
  | untypedLeaf (name : String) (fallback : Primitive)
  | unhandledKind (keyword owner : String) (fallback : Primitive)
  | skippedOperation (name owner : String)
  | skippedInput (name owner : String)
  | finding (owner : String) (f : Finding)
  deriving DecidableEq, Repr

namespace Notice

def level : Notice → Level
  | skippedOperation _ _ => .debug
  | skippedInput _ _ => .debug
  | _ => .warn

def message : Notice → String
  | unhandledEntry kind name p =>
    s!"Unhandled {kind.keyword} entry '{name}', using {p.keyword}"
  | untypedLeaf name p => s!"Leaf '{name}' has no type, using {p.keyword}"
  | unhandledKind keyword owner p =>
    s!"Unhandled YANG base type '{keyword}' for leaf '{owner}', using {p.keyword}"
  | skippedOperation name owner => s!"Skipping rpc '{name}' in module {owner}"
  | skippedInput name owner => s!"Skipping action input '{name}' in module {owner}"
  | finding owner f => s!"Module {owner}: {f.message}"

end Notice

/-- A result together with the notices that were given on the way to it. -/
structure Noted (α : Type) where
  notices : List Notice
  value : α

end YangScript
