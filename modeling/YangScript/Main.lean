import YangScript.Command.Session

/-!
# The executable

A job is carried out on the disk: its requests become system calls, and what it says goes to
standard error, debugging notices apart.
-/

set_option autoImplicit false

namespace YangScript.Disk

/-- The cause of a system error, told by its number where that is known. -/
def cause (e : IO.Error) : IoError :=
  match e with
  | .noFileOrDirectory _ _ _ => .notFound
  | .alreadyExists _ _ _ => .alreadyExists
  | .inappropriateType _ code _ => if code = 21 then .isDirectory else .notDirectory
  | .invalidArgument _ code _ =>
    if code = 36 then .nameTooLong else if code = 22 then .nulByte else .other (toString e)
  | _ => .other (toString e)

def attempt {α : Type} (action : IO α) : IO (Except IoError α) := do
  match ← action.toBaseIO with
  | .ok a => return .ok a
  | .error e => return .error (cause e)

/-- The files below the directory at `path`, with the names that lead to them. -/
partial def filesBelow (path : String) (names : List String) : IO (List Location) := do
  let here ← IO.currentDir
  let mut found : List Location := []
  for entry in ← (here / path).readDir do
    let kind := (← entry.path.symlinkMetadata).type
    if kind == .dir then
      found := found ++ (← filesBelow (Path.join path entry.fileName) (names ++ [entry.fileName]))
    else if kind == .file then
      found := found ++ [names ++ [entry.fileName]]
  return found

/-- Scans the disk as a file tree whose root is the directory at `path` is scanned. -/
def scan (path extension : String) : IO (Except ScanError (List String)) := do
  let here ← IO.currentDir
  match ← attempt (here / path).metadata with
  | .error e => return .error ⟨path, e⟩
  | .ok status =>
    let wanted := Path.dropLeadingDots extension
    if status.type == .dir then
      match ← attempt (filesBelow path []) with
      | .error e => return .error ⟨path, e⟩
      | .ok found =>
        let tree := found.foldl (fun t names => t.put names (.file .binary)) FileTree.empty
        return .ok (tree.items.filterMap (FileTree.found? path [] wanted))
    else if status.type == .file && FileTree.hasExtension wanted (Path.names path) then
      return .ok [path]
    else return .ok []

def read (path : String) : IO (Except IoError String) := do
  match ← attempt (IO.FS.readBinFile path) with
  | .error e => return .error e
  | .ok bytes =>
    match String.fromUTF8? bytes with
    | some text => return .ok text
    | none => return .error .notText

def say (n : RunNotice) : IO Unit := do
  match n.level with
  | .debug => return
  | .info => IO.eprintln s!"INFO {n.message}"
  | .warn => IO.eprintln s!"WARN {n.message}"
  | .error => IO.eprintln s!"ERROR {n.message}"

end YangScript.Disk

namespace YangScript

def Job.carryOut {α : Type} : Job α → IO α
  | .done a => return a
  | .say n next => do
    Disk.say n
    next.carryOut
  | .scan directory extension next => do
    (next (← Disk.scan directory extension)).carryOut
  | .read file next => do
    (next (← Disk.read file)).carryOut
  | .makeDirs directory next => do
    (next (← Disk.attempt (IO.FS.createDirAll directory))).carryOut
  | .write file text next => do
    (next (← Disk.attempt (IO.FS.writeFile file text))).carryOut

end YangScript

def main (args : List String) : IO UInt32 := do
  let here ← IO.currentDir
  let result ← (YangScript.program here.toString args).carryOut
  IO.print result.printed
  IO.eprint result.complaint
  return result.code.toUInt32
