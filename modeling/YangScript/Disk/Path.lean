import YangScript.Disk.IoError
import YangScript.Text.Join
import YangScript.Text.Segments

/-!
# Path texts

A path text is cut at its slashes into names; empty names have no meaning, so slashes may be
doubled. A slash at the end asks for a directory, which is what the name `.` asks for as well.
-/

set_option autoImplicit false

namespace YangScript.Path

def isAbsolute (path : String) : Bool := path.toList.head? == some '/'

def endsInSlash (path : String) : Bool := path.toList.getLast? == some '/'

/-- The names in a path, `.` and `..` included. -/
def names (path : String) : List String :=
  Text.words (fun c => c == '/') path

/-- The names to walk through; a slash at the end counts as the name `.`. -/
def steps (path : String) : List String :=
  if endsInSlash path then names path ++ ["."] else names path

/-- A path below a directory. An absolute path stays as it is. -/
def join (directory path : String) : String :=
  if isAbsolute path then path
  else if endsInSlash directory then directory ++ path
  else directory ++ "/" ++ path

theorem join_ne_empty (directory path : String) : join directory path ≠ "" := by
  rw [join]
  split
  · rename_i habsolute
    rintro rfl
    exact absurd habsolute (by decide)
  · split
    · rename_i hslash
      intro h
      have hempty : directory = "" := (String.append_eq_empty_iff.mp h).1
      rw [hempty] at hslash
      exact absurd hslash (by decide)
    · intro h
      rw [← String.toList_inj] at h
      simp at h

/-- The longest file name that is allowed has 255 bytes. -/
def isTooLong (name : String) : Bool := decide (255 < name.utf8ByteSize)

/-- Why a path is refused before anything is looked up: it holds a NUL, it is empty, or it has
4096 bytes or more. -/
def refusal? (path : String) : Option IoError :=
  if path.toList.contains '\x00' then some .nulByte
  else if path = "" then some .notFound
  else if 4096 ≤ path.utf8ByteSize then some .nameTooLong
  else none

/-- What follows the last dot of a file name, if anything stands before that dot. -/
def extension? (name : String) : Option String :=
  let reversed := name.toList.reverse
  let tail := reversed.takeWhile (fun c => c != '.')
  match reversed.dropWhile (fun c => c != '.') with
  | [] => none
  | [_] => none
  | _ :: _ :: _ => some (String.ofList tail.reverse)

def dropLeadingDots (extension : String) : String :=
  String.ofList (extension.toList.dropWhile (fun c => c == '.'))

/-- The name of one file, which is no path and none of the names with a meaning of their own. -/
structure IsFileName (name : String) : Prop where
  present : name ≠ ""
  free : '/' ∉ name.toList
  notHere : name ≠ "."
  notUp : name ≠ ".."

theorem not_isAbsolute {file : String} (h : IsFileName file) : isAbsolute file = false := by
  have hhead : file.toList.head? ≠ some '/' := by
    intro he
    obtain ⟨tail, htail⟩ := List.head?_eq_some_iff.mp he
    exact h.free (by rw [htail]; exact List.mem_cons_self)
  simpa [isAbsolute] using hhead

theorem names_file {file : String} (h : IsFileName file) : names file = [file] := by
  refine Text.words_of_free _ file h.present fun c hc => ?_
  have hne : c ≠ '/' := fun he => h.free (he ▸ hc)
  simpa using hne

theorem names_slash (cs ds : List Char) :
    names (String.ofList (cs ++ '/' :: ds)) =
      names (String.ofList cs) ++ names (String.ofList ds) :=
  Text.words_append_cut _ cs ds '/' rfl

theorem not_endsInSlash {file : String} (h : IsFileName file) : endsInSlash file = false := by
  have hlast : file.toList.getLast? ≠ some '/' := fun he => h.free (List.mem_of_getLast? he)
  simpa [endsInSlash] using hlast

theorem steps_file {file : String} (h : IsFileName file) : steps file = [file] := by
  rw [steps, not_endsInSlash h, names_file h]
  rfl

section

variable {path : String} (h : isAbsolute path = false)

include h

/-- A relative path stands behind a slash, which may be that of the directory. -/
theorem join_relative (directory : String) :
    ∃ front, join directory path = String.ofList (front ++ '/' :: path.toList) ∧
      (directory.toList = front ∨ directory.toList = front ++ ['/']) := by
  rw [join, h, if_neg (by decide)]
  split
  · rename_i hslash
    have hlast : directory.toList.getLast? = some '/' := by simpa [endsInSlash] using hslash
    obtain ⟨front, hfront⟩ := List.getLast?_eq_some_iff.mp hlast
    refine ⟨front, ?_, Or.inr hfront⟩
    rw [← String.toList_inj]
    simp [hfront]
  · refine ⟨directory.toList, ?_, Or.inl rfl⟩
    rw [← String.toList_inj]
    simp

theorem names_join_relative (directory : String) :
    names (join directory path) = names directory ++ names path := by
  obtain ⟨front, hjoin, hfront⟩ := join_relative h directory
  have hnames : names directory = names (String.ofList front) := by
    rcases hfront with hfront | hfront
    · rw [← hfront, String.ofList_toList]
    · have hslash := names_slash front []
      rw [← hfront, String.ofList_toList] at hslash
      simpa [names, Text.words, Text.segments] using hslash
  rw [hjoin, names_slash, String.ofList_toList, hnames]

/-- A relative path is walked from the directory that it is joined to. -/
theorem steps_join_relative (directory : String) (hne : path ≠ "") :
    steps (join directory path) = names directory ++ steps path := by
  have hends : endsInSlash (join directory path) = endsInSlash path := by
    obtain ⟨front, hjoin, -⟩ := join_relative h directory
    have hchars : path.toList ≠ [] := by simpa using hne
    obtain ⟨init, c, hpath⟩ := (List.eq_nil_or_concat path.toList).resolve_left hchars
    rw [endsInSlash, endsInSlash, hjoin, String.toList_ofList, hpath, List.concat_eq_append,
      ← List.cons_append, ← List.append_assoc, List.getLast?_concat, List.getLast?_concat]
  rw [steps, steps, hends, names_join_relative h directory]
  split
  · rw [List.append_assoc]
  · rfl

theorem isAbsolute_join {directory : String} (hd : directory ≠ "") :
    isAbsolute (join directory path) = isAbsolute directory := by
  obtain ⟨front, hjoin, hfront⟩ := join_relative h directory
  have hne : directory.toList ≠ [] := by simpa using hd
  rw [isAbsolute, isAbsolute, hjoin, String.toList_ofList]
  cases front with
  | nil => rcases hfront with hfront | hfront <;> simp_all
  | cons c front => rcases hfront with hfront | hfront <;> simp [hfront]

end

/-- A file of a directory lies one name below it. -/
theorem steps_join (directory : String) {file : String} (h : IsFileName file) :
    steps (join directory file) = names directory ++ [file] := by
  rw [steps_join_relative (not_isAbsolute h) directory h.present, steps_file h]

theorem text_join_cons {name : String} (h : IsFileName name) {rest : List String}
    (hne : rest ≠ []) (hrest : isAbsolute (Text.join "/" rest) = false) :
    Text.join "/" (name :: rest) = join name (Text.join "/" rest) := by
  rw [Text.join_cons, join, hrest, not_endsInSlash h]
  simp [hne, String.append_assoc]

/-- Some names with slashes between them are a relative path that is walked along these names. -/
theorem steps_names {files : List String} (hne : files ≠ []) (h : ∀ file ∈ files, IsFileName file) :
    isAbsolute (Text.join "/" files) = false ∧ Text.join "/" files ≠ "" ∧
      steps (Text.join "/" files) = files := by
  induction files with
  | nil => exact absurd rfl hne
  | cons file rest ih =>
    obtain ⟨hfile, hrest⟩ := List.forall_mem_cons.mp h
    cases rest with
    | nil => exact ⟨not_isAbsolute hfile, hfile.present, steps_file hfile⟩
    | cons next rest =>
      obtain ⟨hrelative, hpresent, hsteps⟩ := ih (List.cons_ne_nil _ _) hrest
      rw [text_join_cons hfile (List.cons_ne_nil _ _) hrelative,
        isAbsolute_join hrelative hfile.present, steps_join_relative hrelative file hpresent,
        hsteps, names_file hfile]
      exact ⟨not_isAbsolute hfile, join_ne_empty _ _, rfl⟩

theorem names_text_join {files : List String} (hne : files ≠ [])
    (h : ∀ file ∈ files, IsFileName file) : names (Text.join "/" files) = files := by
  induction files with
  | nil => exact absurd rfl hne
  | cons file rest ih =>
    obtain ⟨hfile, hrest⟩ := List.forall_mem_cons.mp h
    cases rest with
    | nil => exact names_file hfile
    | cons next rest =>
      have hrelative := (steps_names (List.cons_ne_nil _ _) hrest).1
      rw [text_join_cons hfile (List.cons_ne_nil _ _) hrelative, names_join_relative hrelative,
        ih (List.cons_ne_nil _ _) hrest, names_file hfile]
      rfl

end YangScript.Path
