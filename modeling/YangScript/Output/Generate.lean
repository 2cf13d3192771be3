import YangScript.Document.File
import YangScript.Output.Source

/-!
# From a document to its generated text

A document is loaded, its keys are validated, its findings are noted, and then its text is made.
Each stage fails in a way of its own and leaves the later ones undone.
-/

set_option autoImplicit false

namespace YangScript

inductive GenerateError where
  | document (e : LoadError)
  | key (f : KeyFault)
  | io (e : IoError)
  | root (e : RootError)
  deriving DecidableEq, Repr

def GenerateError.message : GenerateError → String
  | .document e => s!"schema parse error: {e.message}"
  | .key f => s!"schema error: {f.message}"
  | .io e => s!"IO error: {e.message}"
  | .root e => e.message

def Module.findingNotices (m : Module) : List Notice :=
  m.findings.map (Notice.finding m.name)

def generateDocument (options : SourceOptions) (document : String) :
    Noted (Except GenerateError (Option String)) :=
  match Module.ofDocument document with
  | .error e => ⟨[], .error (.document e)⟩
  | .ok m =>
    match m.validate with
    | .error f => ⟨[], .error (.key f)⟩
    | .ok () =>
      let made := m.source options
      ⟨m.findingNotices ++ made.notices, made.value.mapError .root⟩

def generateFile (options : SourceOptions) (reading : Except IoError String) :
    Noted (Except GenerateError (Option String)) :=
  match reading with
  | .error e => ⟨[], .error (.io e)⟩
  | .ok text => generateDocument options text

end YangScript
