import YangScript.Disk.Scan
import YangScript.Document.File
import YangScript.Output.Notice
import YangScript.Output.Source

/-!
# What a run reports

A failure concerns one document or one module; only that of the output directory concerns the
whole run. Everything else that a run says is a notice of its progress.
-/

set_option autoImplicit false

namespace YangScript

inductive Failure where
  | load (file : String) (e : FileError)
  | invalid (name : String) (f : KeyFault)
  | fileName (name : String)
  | root (name : String) (e : RootError)
  | write (file : String) (e : IoError)
  | outputDirectory (path : String) (e : IoError)
  deriving DecidableEq, Repr

def Failure.message : Failure → String
  | .load file e => s!"failed to load {file}: {e.chain}"
  | .invalid name f => s!"invalid module {name}: {f.message}"
  | .fileName name => s!"module name '{name}' is not a valid file name"
  | .root name e => s!"failed to generate module {name}: {e.message}"
  | .write file e => s!"failed to write {file}: {e.message}"
  | .outputDirectory path e => s!"failed to create output directory {path}: {e.message}"

inductive RunNotice where
  | output (n : Notice)
  | scanning (directory : String)
  | unreadable (directory : String) (e : ScanError)
  | noFiles (extension directory : String)
  | loading (file : String)
  | superseded (file name : String)
  | skippedSubmodule (name : String)
  | noFields (name : String)
  | wrote (file : String)
  | failed (f : Failure)
  | completed (errors : Nat)
  deriving DecidableEq, Repr

namespace RunNotice

def level : RunNotice → Level
  | output n => n.level
  | scanning _ => .info
  | unreadable _ _ => .info
  | noFiles _ _ => .info
  | loading _ => .debug
  | superseded _ _ => .debug
  | skippedSubmodule _ => .debug
  | noFields _ => .debug
  | wrote _ => .info
  | failed _ => .error
  | completed _ => .info

def message : RunNotice → String
  | output n => n.message
  | scanning directory => s!"Scanning directory: {directory}"
  | unreadable directory e => s!"Failed to read directory {directory}: {e.message}"
  | noFiles extension directory => s!"No .{extension} files found in {directory}"
  | loading file => s!"Loading {file}"
  | superseded file name =>
    s!"Ignoring {file}: module {name} already loaded at a newer revision"
  | skippedSubmodule name => s!"Skipping submodule {name}"
  | noFields name => s!"No schemas found in module {name}, skipping"
  | wrote file => s!"Wrote {file}"
  | failed f => f.message
  | completed errors => s!"Completed with {errors} errors."

end RunNotice

end YangScript
