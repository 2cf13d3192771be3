import YangScript.Disk.IoError
import YangScript.Disk.Path
import YangScript.Keyed

/-!
# File trees

A file tree is the finite set of what lies at each location below its root: a directory or a file.
A location is the list of names that lead to it. Paths are walked name by name, and a name can be
looked up in a directory only. Making directories and writing files answer with the tree that
results, also where they fail half-way.
-/

set_option autoImplicit false

namespace YangScript

/-- What a file holds: a text, or bytes that are none. -/
inductive Content where
  | text (s : String)
  | binary
  deriving DecidableEq, Repr

def Content.read : Content → Except IoError String
  | .text s => .ok s
  | .binary => .error .notText

inductive Item where
  | directory
  | file (content : Content)
  deriving DecidableEq, Repr

abbrev Location := List String

structure FileTree where
  items : List (Location × Item)
  sorted : Keyed.Sorted Prod.fst items

namespace FileTree

def empty : FileTree := ⟨[], Keyed.sorted_nil Prod.fst⟩

/-- What lies at a location. The root is a directory. -/
def find? (t : FileTree) (loc : Location) : Option Item :=
  match loc with
  | [] => some .directory
  | _ :: _ => (Keyed.find? Prod.fst loc t.items).map Prod.snd

def put (t : FileTree) (loc : Location) (item : Item) : FileTree :=
  ⟨Keyed.insert Prod.fst (loc, item) t.items,
    Keyed.sorted_insert Prod.fst (loc, item) t.items t.sorted⟩

theorem find?_put_self (t : FileTree) (loc : Location) (item : Item) (h : loc ≠ []) :
    (t.put loc item).find? loc = some item := by
  cases loc with
  | nil => exact absurd rfl h
  | cons name rest =>
    have := Keyed.find?_insert_self Prod.fst (name :: rest, item) t.items
    simp only [find?, put]
    rw [this]
    rfl

theorem find?_put_ne (t : FileTree) (loc other : Location) (item : Item) (h : other ≠ loc) :
    (t.put loc item).find? other = t.find? other := by
  cases other with
  | nil => rfl
  | cons name rest =>
    simp only [find?, put]
    rw [Keyed.find?_insert_ne Prod.fst (name :: rest) (loc, item) t.items h]

theorem mem_items_iff (t : FileTree) {loc : Location} (h : loc ≠ []) (item : Item) :
    (loc, item) ∈ t.items ↔ t.find? loc = some item := by
  rw [Keyed.mem_iff_find? t.sorted]
  cases loc with
  | nil => exact absurd rfl h
  | cons name rest =>
    rw [find?, Option.map_eq_some_iff]
    constructor
    · intro hfound
      exact ⟨_, hfound, rfl⟩
    · rintro ⟨⟨loc, item⟩, hfound, rfl⟩
      have hloc : loc = name :: rest := by simpa using List.find?_some hfound
      rw [hfound, hloc]

/-- What lies at a location already can be put there without any change. -/
theorem put_eq_self (t : FileTree) {loc : Location} {item : Item} (h : loc ≠ [])
    (hfound : t.find? loc = some item) : t.put loc item = t := by
  have hsame := Keyed.insert_eq_self t.sorted ((t.mem_items_iff h item).mpr hfound)
  cases t
  simpa [put] using hsame

/-- Walks from a directory along some names. Only the last name may lead to a file. -/
def walk (t : FileTree) (base : Location) : List String → Except IoError Location
  | [] => .ok base
  | name :: rest =>
    if name = "." then t.walk base rest
    else if name = ".." then t.walk base.dropLast rest
    else if Path.isTooLong name then .error .nameTooLong
    else
      match t.find? (base ++ [name]) with
      | none => .error .notFound
      | some .directory => t.walk (base ++ [name]) rest
      | some (.file _) => if rest.isEmpty then .ok (base ++ [name]) else .error .notDirectory

/-- Where a path is walked from: the root if it is absolute. -/
def origin (cwd : Location) (path : String) : Location :=
  if Path.isAbsolute path then [] else cwd

/-- The location a path leads to, if something is there. -/
def locate (t : FileTree) (cwd : Location) (path : String) : Except IoError Location :=
  match Path.refusal? path with
  | some e => .error e
  | none => t.walk (origin cwd path) (Path.steps path)

def isDirectory (t : FileTree) (loc : Location) : Bool :=
  decide (t.find? loc = some .directory)

/-- The text of the file at a path. -/
def read (t : FileTree) (cwd : Location) (path : String) : Except IoError String :=
  match t.locate cwd path with
  | .error e => .error e
  | .ok loc =>
    match t.find? loc with
    | none => .error .notFound
    | some .directory => .error .isDirectory
    | some (.file content) => content.read

/-- The place of a new name: the location of the directory around it, with the name. -/
def newPlace (t : FileTree) (base : Location) (names : List String) (taken : IoError) :
    Except IoError Location :=
  match names.getLast? with
  | none => .error taken
  | some name =>
    match t.walk base (names.dropLast ++ ["."]) with
    | .error e => .error e
    | .ok around =>
      if name = "." || name = ".." then .error taken
      else if Path.isTooLong name then .error .nameTooLong
      else .ok (around ++ [name])

/-- The answer of an operation, with the tree that it leaves. -/
structure Change where
  result : Except IoError Unit
  tree : FileTree

/-- Makes one directory along some names; what is there already is in the way. -/
def makeDir (t : FileTree) (base : Location) (names : List String) : Change :=
  match t.newPlace base names .alreadyExists with
  | .error e => ⟨.error e, t⟩
  | .ok place =>
    match t.find? place with
    | some _ => ⟨.error .alreadyExists, t⟩
    | none => ⟨.ok (), t.put place .directory⟩

/-- A failure to make a directory is none if the directory is there. -/
def forgive (base : Location) (names : List String) (c : Change) : Change :=
  match c.result with
  | .ok () => c
  | .error e =>
    match c.tree.walk base names with
    | .error _ => ⟨.error e, c.tree⟩
    | .ok loc => if c.tree.isDirectory loc then ⟨.ok (), c.tree⟩ else ⟨.error e, c.tree⟩

/-- Makes a directory, and if it has no parent makes the parent first by `above`. -/
def ensureDir (base : Location) (names : List String) (above : FileTree → Change)
    (t : FileTree) : Change :=
  let first := t.makeDir base names
  match first.result with
  | .error .notFound =>
    let up := above t
    match up.result with
    | .error _ => up
    | .ok () => forgive base names (up.tree.makeDir base names)
  | _ => forgive base names first

/-- Makes a directory and its missing ancestors. The names stand last first and hold no `.`. -/
def ensureDirs (base : Location) : List String → FileTree → Change
  | [], t => ensureDir base [] (fun t => ⟨.ok (), t⟩) t
  | name :: above, t => ensureDir base (name :: above).reverse (ensureDirs base above) t

/-- Makes the directory at a path and its missing ancestors. The name `.` at the end stands for
the directory before it, which is then not made. -/
def makeDirs (t : FileTree) (cwd : Location) (path : String) : Change :=
  match Path.refusal? path with
  | some e => ⟨.error e, t⟩
  | none =>
    let names := Path.names path
    let real := names.filter (fun name => name != ".")
    if names.getLast? = some "." then
      ensureDir (origin cwd path) (real ++ ["."])
        (ensureDirs (origin cwd path) real.dropLast.reverse) t
    else ensureDirs (origin cwd path) real.reverse t

/-- Writes a text to the file at a path, which is made if it is not there. -/
def write (t : FileTree) (cwd : Location) (path text : String) : Change :=
  match Path.refusal? path with
  | some e => ⟨.error e, t⟩
  | none =>
    match t.newPlace (origin cwd path) (Path.steps path) .isDirectory with
    | .error e => ⟨.error e, t⟩
    | .ok place =>
      if t.isDirectory place then ⟨.error .isDirectory, t⟩
      else ⟨.ok (), t.put place (.file (.text text))⟩

/-- Puts an item at a location, with a directory at every location above it where there is nothing
yet. -/
def place (t : FileTree) (loc : Location) (item : Item) : FileTree :=
  let above := (List.range loc.length).map (fun n => loc.take n)
  let t := above.foldl (fun t up => if (t.find? up).isSome then t else t.put up .directory) t
  t.put loc item

/-- What is in `after` and was not the same in `before`. -/
def changes (before after : FileTree) : List (Location × Item) :=
  after.items.filter (fun entry => decide (before.find? entry.1 ≠ some entry.2))

end FileTree

end YangScript
