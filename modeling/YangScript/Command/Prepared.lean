import YangScript.Command.Failure
import YangScript.Output.Generate

/-!
# What a module comes to before anything is written

A module that is not a submodule either fails (its keys, its name or its root), has no fields, or
is ready to be written under the name of its file. Nothing here depends on the disk.
-/

set_option autoImplicit false

namespace YangScript

inductive Prepared where
  | failure (f : Failure)
  | noFields
  | ready (fileName text : String)

/-- The name of a module's file. A name that is empty or holds a separator gives none. -/
def fileName? (name : String) : Option String :=
  if name = "" || name.toList.any (fun c => c == '/' || c == '\x5c') then none
  else some (name ++ ".ts")

def Prepared.ofSource (name fileName : String) :
    Except RootError (Option String) → Prepared
  | .error e => .failure (.root name e)
  | .ok none => .noFields
  | .ok (some text) => .ready fileName text

def Module.prepare (options : SourceOptions) (m : Module) : Noted Prepared :=
  match m.validate with
  | .error f => ⟨[], .failure (.invalid m.name f)⟩
  | .ok () =>
    match fileName? m.name with
    | none => ⟨m.findingNotices, .failure (.fileName m.name)⟩
    | some fileName =>
      let made := m.source options
      ⟨m.findingNotices ++ made.notices, Prepared.ofSource m.name fileName made.value⟩

end YangScript
