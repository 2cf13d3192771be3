import YangScript.Disk.FileTree

/-!
# Finding files by extension

A scan yields every file below a directory whose name has the wanted extension, in the order of
their locations: names are compared one by one, so a directory's files stand together. A file
that is scanned itself is the only one that can be found.
-/

set_option autoImplicit false

namespace YangScript

structure ScanError where
  path : String
  cause : IoError
  deriving DecidableEq, Repr

def ScanError.message (e : ScanError) : String :=
  s!"IO error for operation on {e.path}: {e.cause.message}"

namespace FileTree

/-- The names that lead from a directory to a location below it. -/
def below? (directory loc : Location) : Option (List String) :=
  if directory.isPrefixOf loc then
    match loc.drop directory.length with
    | [] => none
    | names => some names
  else none

def hasExtension (extension : String) (loc : Location) : Bool :=
  match loc.getLast? with
  | none => false
  | some name => Path.extension? name == some extension

/-- The path of a file found below the directory at `path`. -/
def found? (path : String) (directory : Location) (extension : String)
    (entry : Location × Item) : Option String :=
  match entry.2, below? directory entry.1 with
  | .file _, some names =>
    if hasExtension extension entry.1 then some (Path.join path (Text.join "/" names)) else none
  | _, _ => none

def scan (t : FileTree) (cwd : Location) (path extension : String) :
    Except ScanError (List String) :=
  let extension := Path.dropLeadingDots extension
  match t.locate cwd path with
  | .error cause => .error ⟨path, cause⟩
  | .ok loc =>
    if t.isDirectory loc then .ok (t.items.filterMap (found? path loc extension))
    else .ok (if hasExtension extension loc then [path] else [])

end FileTree

end YangScript
