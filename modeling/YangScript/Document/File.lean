import YangScript.Disk.IoError
import YangScript.Document.Load

/-!
# Loading a module from a file

A file may fail to give a text before its text can fail to be a module.
-/

set_option autoImplicit false

namespace YangScript

inductive FileError where
  | io (e : IoError)
  | document (e : LoadError)
  deriving DecidableEq, Repr

namespace FileError

def message : FileError → String
  | io e => s!"IO error: {e.message}"
  | document e => e.message

/-- The message followed by its causes. -/
def chain : FileError → String
  | io e => s!"{(io e).message}: {e.message}"
  | document e => e.chain

end FileError

section

variable {ε ε' α : Type} (f : ε → ε')

@[simp]
theorem mapError_error (e : ε) : (Except.error e : Except ε α).mapError f = .error (f e) := rfl

@[simp]
theorem mapError_ok (a : α) : (Except.ok a : Except ε α).mapError f = .ok a := rfl

end

/-- The module in what reading a file gave. -/
def Module.ofReading (reading : Except IoError String) : Except FileError Module :=
  match reading with
  | .error e => .error (.io e)
  | .ok text => (Module.ofDocument text).mapError .document

end YangScript
