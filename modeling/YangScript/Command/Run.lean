import YangScript.Command.Job
import YangScript.Command.Options
import YangScript.Command.Prepared
import YangScript.Schema.Registry

/-!
# One run

A run scans the input directory, loads what it finds and keeps the newest revision of every
module, makes the output directory, and writes one file for each module in the order of their
names. A failure is said and counted, or ends the run at once if the options ask for that; only
the lack of an output directory always ends it. If there is nothing to load, nothing is made.
-/

set_option autoImplicit false

namespace YangScript

structure Summary where
  written : List String
  skipped : Nat
  errors : Nat
  deriving DecidableEq, Repr

def Summary.none : Summary := ⟨[], 0, 0⟩

def Summary.isSuccess (s : Summary) : Bool := s.errors == 0

/-- The result of a stage: what it has gathered, or the failure that ended the run. -/
abbrev Stage (σ : Type) := Job (Except Failure σ)

/-- Ends the run with a failure, or says it and goes on. -/
def failWith {σ : Type} (bail : Bool) (f : Failure) (next : Stage σ) : Stage σ :=
  if bail then .done (.error f) else .say (.failed f) next

structure Loaded where
  registry : Registry
  errors : Nat

def loadAll (bail : Bool) : List String → Loaded → Stage Loaded
  | [], s => .done (.ok s)
  | file :: rest, s =>
    .say (.loading file) <| .read file fun reading =>
      match Module.ofReading reading with
      | .error e =>
        failWith bail (.load file e) (loadAll bail rest { s with errors := s.errors + 1 })
      | .ok m =>
        if s.registry.accepts m then
          loadAll bail rest { s with registry := s.registry.insert m }
        else .say (.superseded file m.name) (loadAll bail rest s)

/-- Writes the file of a module that is not a submodule, and goes on with what has been done. -/
def moduleJob (options : Options) (out : String) (m : Module) (s : Summary)
    (next : Summary → Stage Summary) : Stage Summary :=
  let failed := fun f => failWith options.bail f (next { s with errors := s.errors + 1 })
  let prepared := m.prepare options.source
  .sayAll (prepared.notices.map .output) <|
    match prepared.value with
    | .failure f => failed f
    | .noFields => .say (.noFields m.name) (next { s with skipped := s.skipped + 1 })
    | .ready fileName text =>
      let file := Path.join out fileName
      .write file text fun answer =>
        match answer with
        | .error e => failed (.write file e)
        | .ok () => .say (.wrote file) (next { s with written := s.written ++ [file] })

def writeAll (options : Options) (out : String) : List Module → Summary → Stage Summary
  | [], s => .done (.ok s)
  | m :: rest, s =>
    if m.isSubmodule then
      .say (.skippedSubmodule m.name) (writeAll options out rest s)
    else moduleJob options out m s (writeAll options out rest)

/-- Goes on with what a stage has gathered, unless it ended the run. -/
def andThen {σ τ : Type} (stage : Stage σ) (next : σ → Stage τ) : Stage τ :=
  stage.bind fun r =>
    match r with
    | .error f => .done (.error f)
    | .ok s => next s

def runFiles (options : Options) (out : String) (files : List String) : Stage Summary :=
  andThen (loadAll options.bail files ⟨Registry.empty, 0⟩) fun loaded =>
    .makeDirs out fun answer =>
      match answer with
      | .error e => .done (.error (.outputDirectory out e))
      | .ok () =>
        andThen (writeAll options out loaded.registry.modules ⟨[], 0, loaded.errors⟩) fun s =>
          .say (.completed s.errors) (.done (.ok s))

/-- The run that the options ask for, from the working directory at the path `cwd`. -/
def runJob (cwd : String) (options : Options) : Stage Summary :=
  let directory := Path.join cwd options.path
  let out := Path.join cwd options.out
  .say (.scanning directory) <| .scan directory options.extension fun scanned =>
    match scanned with
    | .error e => .say (.unreadable directory e) (.done (.ok Summary.none))
    | .ok [] => .say (.noFiles options.extension directory) (.done (.ok Summary.none))
    | .ok files => runFiles options out files

end YangScript
