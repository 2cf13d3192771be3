import YangScript.Disk.FileTree

/-!
# Files of one directory

A file that is written into a directory goes to the place of its name there. Writing one file
neither moves the place of another nor decides whether the other can be written, and it changes
what is read from no other file of the directory.
-/

set_option autoImplicit false

namespace YangScript

namespace FileTree

theorem isDirectory_iff (t : FileTree) (loc : Location) :
    t.isDirectory loc = true ↔ t.find? loc = some .directory := by
  simp [isDirectory]

/-- One step of a walk from directory to directory. -/
inductive Enters (t : FileTree) (base : Location) : String → Location → Prop where
  | here : Enters t base "." base
  | up : Enters t base ".." base.dropLast
  | down {name : String} (ordinary : name ≠ "." ∧ name ≠ "..")
      (short : Path.isTooLong name = false) (directory : t.isDirectory (base ++ [name]) = true) :
      Enters t base name (base ++ [name])

theorem Enters.walk_eq {t : FileTree} {base next : Location} {name : String}
    (h : Enters t base name next) (rest : List String) :
    t.walk base (name :: rest) = t.walk next rest := by
  cases h with
  | here => rfl
  | up => rfl
  | down ordinary short directory =>
    rw [isDirectory_iff] at directory
    simp [walk, ordinary.1, ordinary.2, short, directory]

/-- The end of a walk at a file of the directory that it has come to. -/
structure EndsAtFile (t : FileTree) (base : Location) (name : String) (loc : Location) : Prop where
  place : loc = base ++ [name]
  ordinary : name ≠ "." ∧ name ≠ ".."
  short : Path.isTooLong name = false
  found : ∃ content, t.find? loc = some (.file content)

theorem EndsAtFile.walk_eq {t : FileTree} {base loc : Location} {name : String}
    (h : EndsAtFile t base name loc) : t.walk base [name] = .ok loc := by
  obtain ⟨rfl, ordinary, short, content, hfound⟩ := h
  simp [walk, ordinary.1, ordinary.2, short, hfound]

/-- A walk steps on from directory to directory, unless it ends at a file. -/
theorem walk_cons_cases {t : FileTree} {base loc : Location} {name : String} {rest : List String}
    (h : t.walk base (name :: rest) = .ok loc) :
    (∃ next, Enters t base name next ∧ t.walk next rest = .ok loc) ∨
      rest = [] ∧ EndsAtFile t base name loc := by
  rw [walk] at h
  by_cases hhere : name = "."
  · subst hhere
    exact Or.inl ⟨base, .here, h⟩
  · rw [if_neg hhere] at h
    by_cases hup : name = ".."
    · subst hup
      exact Or.inl ⟨base.dropLast, .up, h⟩
    · rw [if_neg hup] at h
      by_cases hlong : Path.isTooLong name = true
      · rw [if_pos hlong] at h
        exact absurd h (by simp)
      · rw [if_neg hlong] at h
        have hshort : Path.isTooLong name = false := by simpa using hlong
        split at h
        · exact absurd h (by simp)
        · rename_i hdirectory
          exact Or.inl ⟨_, .down ⟨hhere, hup⟩ hshort ((isDirectory_iff t _).mpr hdirectory), h⟩
        · rename_i content hfound
          split at h
          · rename_i hlast
            obtain rfl := Except.ok.inj h
            exact Or.inr ⟨by simpa using hlast, rfl, ⟨hhere, hup⟩, hshort, content, hfound⟩
          · exact absurd h (by simp)

/-- Only the end of a walk can be a file. -/
theorem exists_enters {t : FileTree} {base loc : Location} {name : String} {rest : List String}
    (hend : rest ≠ [] ∨ t.isDirectory loc = true) (h : t.walk base (name :: rest) = .ok loc) :
    ∃ next, Enters t base name next ∧ t.walk next rest = .ok loc := by
  rcases walk_cons_cases h with henters | ⟨hlast, hfile⟩
  · exact henters
  · rcases hend with hne | hdirectory
    · exact absurd hlast hne
    · obtain ⟨content, hfound⟩ := hfile.found
      rw [isDirectory_iff, hfound] at hdirectory
      exact absurd hdirectory (by simp)

/-- A walk that ends in a directory can be gone on with from there. -/
theorem walk_append {t : FileTree} {base around : Location} {names : List String}
    (h : t.walk base (names ++ ["."]) = .ok around) (more : List String) :
    t.walk base (names ++ more) = t.walk around more := by
  induction names generalizing base with
  | nil =>
    have hbase : base = around := Except.ok.inj h
    rw [hbase]
    rfl
  | cons name names ih =>
    obtain ⟨next, henters, hnext⟩ := exists_enters (Or.inl (by simp)) h
    rw [List.cons_append, henters.walk_eq]
    exact ih hnext

theorem ne_nil_of_not_isDirectory {t : FileTree} {place : Location}
    (h : t.isDirectory place = false) : place ≠ [] := by
  intro hnil
  rw [hnil] at h
  exact absurd h (by simp [isDirectory, find?])

/-- A file put where no directory is leaves the directories as they are. -/
theorem isDirectory_put {t : FileTree} {place : Location} (h : t.isDirectory place = false)
    (content : Content) (loc : Location) :
    (t.put place (.file content)).isDirectory loc = t.isDirectory loc := by
  by_cases hloc : loc = place
  · rw [hloc, h, isDirectory, find?_put_self t place _ (ne_nil_of_not_isDirectory h)]
    rfl
  · rw [isDirectory, isDirectory, find?_put_ne t place loc _ hloc]

/-- Every directory of the one tree is a directory of the other. -/
def KeepsDirectories (t t' : FileTree) : Prop :=
  ∀ loc, t.isDirectory loc = true → t'.isDirectory loc = true

theorem Enters.kept {t t' : FileTree} {base next : Location} {name : String}
    (h : Enters t base name next) (hkeeps : KeepsDirectories t t') : Enters t' base name next := by
  cases h with
  | here => exact .here
  | up => exact .up
  | down ordinary short directory => exact .down ordinary short (hkeeps _ directory)

/-- A walk from directory to directory can be done again where these are kept. -/
theorem walk_kept {t t' : FileTree} (hkeeps : KeepsDirectories t t') {base around : Location}
    {names : List String} (hw : t.walk base (names ++ ["."]) = .ok around) :
    t'.walk base (names ++ ["."]) = .ok around := by
  induction names generalizing base with
  | nil => exact hw
  | cons name names ih =>
    obtain ⟨next, henters, hnext⟩ := exists_enters (Or.inl (by simp)) hw
    rw [List.cons_append, (henters.kept hkeeps).walk_eq]
    exact ih hnext

theorem walk_put {t : FileTree} {place base around : Location} (h : t.isDirectory place = false)
    (content : Content) {names : List String} (hw : t.walk base (names ++ ["."]) = .ok around) :
    (t.put place (.file content)).walk base (names ++ ["."]) = .ok around := by
  refine walk_kept (fun loc hloc => ?_) hw
  rw [isDirectory_put h content]
  exact hloc

/-- The place at which a file of the directory at `out` can be written. -/
structure Target (base : Location) (out : String) (t : FileTree) (file : String)
    (place : Location) : Prop where
  allowed : Path.refusal? (Path.join out file) = none
  short : Path.isTooLong file = false
  below : ∃ around, t.walk (origin base out) (Path.names out ++ ["."]) = .ok around ∧
    place = around ++ [file]
  vacant : t.isDirectory place = false

section

variable {base : Location} {out : String} {t : FileTree} {file other : String}
  {place elsewhere : Location}

theorem origin_join (hout : out ≠ "") (hfile : Path.isAbsolute file = false) (base : Location) :
    origin base (Path.join out file) = origin base out := by
  rw [origin, Path.isAbsolute_join hfile hout]
  rfl

theorem newPlace_join (t : FileTree) (base around : Location) (names : List String)
    (hfile : Path.IsFileName file) (taken : IoError)
    (hw : t.walk base (names ++ ["."]) = .ok around) (hshort : Path.isTooLong file = false) :
    t.newPlace base (names ++ [file]) taken = .ok (around ++ [file]) := by
  rw [newPlace, List.getLast?_concat]
  simp [hw, hshort, hfile.notHere, hfile.notUp]

theorem Target.write_eq (h : Target base out t file place) (hout : out ≠ "")
    (hfile : Path.IsFileName file) (text : String) :
    t.write base (Path.join out file) text = ⟨.ok (), t.put place (.file (.text text))⟩ := by
  obtain ⟨around, hw, hplace⟩ := h.below
  have hvacant := h.vacant
  rw [write, h.allowed, origin_join hout (Path.not_isAbsolute hfile), Path.steps_join out hfile]
  simp only [newPlace_join t _ around _ hfile _ hw h.short, ← hplace, hvacant]
  rfl

/-- Where a file can be written, whatever its text. -/
theorem exists_target (hout : out ≠ "") (hfile : Path.IsFileName file) {text : String}
    (h : (t.write base (Path.join out file) text).result = .ok ()) :
    ∃ place, Target base out t file place := by
  rw [write] at h
  split at h
  · exact absurd h (by simp)
  · rename_i hallowed
    rw [origin_join hout (Path.not_isAbsolute hfile), Path.steps_join out hfile, newPlace, List.getLast?_concat] at h
    simp only [List.dropLast_concat, hfile.notHere, hfile.notUp] at h
    cases hw : t.walk (origin base out) (Path.names out ++ ["."]) with
    | error e =>
      rw [hw] at h
      exact absurd h (by simp)
    | ok around =>
      rw [hw] at h
      cases hlong : Path.isTooLong file with
      | true =>
        rw [hlong] at h
        exact absurd h (by simp)
      | false =>
        rw [hlong] at h
        cases hvacant : t.isDirectory (around ++ [file]) with
        | true => exact absurd h (by simp [hvacant])
        | false => exact ⟨around ++ [file], hallowed, hlong, ⟨around, hw, rfl⟩, hvacant⟩

/-- A file can be written if and only if there is a place for it, and its text does not count. -/
theorem write_ok_iff (hout : out ≠ "") (hfile : Path.IsFileName file) (text : String) :
    (t.write base (Path.join out file) text).result = .ok () ↔
      ∃ place, Target base out t file place := by
  constructor
  · exact exists_target hout hfile
  · rintro ⟨place, h⟩
    rw [h.write_eq hout hfile]

/-- A failed write leaves the tree as it is. -/
theorem tree_of_write_error {path text : String} {e : IoError}
    (h : (t.write base path text).result = .error e) : (t.write base path text).tree = t := by
  unfold write at h ⊢
  split
  · rfl
  · split
    · rfl
    · split
      · rfl
      · simp_all

theorem Target.unique (h : Target base out t file place) (h' : Target base out t file elsewhere) :
    place = elsewhere := by
  obtain ⟨around, hw, hplace⟩ := h.below
  obtain ⟨around', hw', hplace'⟩ := h'.below
  rw [hw] at hw'
  rw [hplace, hplace', Except.ok.inj hw']

theorem Target.ne (h : Target base out t file place) (h' : Target base out t other elsewhere)
    (hne : file ≠ other) : place ≠ elsewhere := by
  obtain ⟨around, -, hplace⟩ := h.below
  obtain ⟨around', -, hplace'⟩ := h'.below
  intro he
  rw [hplace, hplace'] at he
  have hsame : [file] = [other] := (List.append_inj' he rfl).2
  exact hne (List.cons.inj hsame).1

/-- Writing one file leaves the places of all files of the directory as they are. -/
theorem Target.put_iff (h : Target base out t file place) (content : Content) :
    Target base out (t.put place (.file content)) other elsewhere ↔
      Target base out t other elsewhere := by
  obtain ⟨around, hw, -⟩ := h.below
  have hkept := walk_put h.vacant content hw
  constructor
  · intro h'
    obtain ⟨around', hw', hplace'⟩ := h'.below
    rw [hkept] at hw'
    refine ⟨h'.allowed, h'.short, ⟨around, hw, ?_⟩, ?_⟩
    · rw [hplace', Except.ok.inj hw']
    · rw [← isDirectory_put h.vacant content]
      exact h'.vacant
  · intro h'
    obtain ⟨around', hw', hplace'⟩ := h'.below
    rw [hw] at hw'
    refine ⟨h'.allowed, h'.short, ⟨around, hkept, ?_⟩, ?_⟩
    · rw [hplace', Except.ok.inj hw']
    · rw [isDirectory_put h.vacant content]
      exact h'.vacant

/-- The path of a file of the directory is walked to the directory and then on to the file. -/
theorem Target.exists_locate_eq (h : Target base out t file place) (hout : out ≠ "")
    (hfile : Path.IsFileName file) :
    ∃ around, place = around ++ [file] ∧
      t.locate base (Path.join out file) = t.walk around [file] := by
  obtain ⟨around, hw, hplace⟩ := h.below
  refine ⟨around, hplace, ?_⟩
  rw [locate, h.allowed, origin_join hout (Path.not_isAbsolute hfile), Path.steps_join out hfile]
  exact walk_append hw [file]

theorem Target.read_eq (h : Target base out t file place) (hout : out ≠ "")
    (hfile : Path.IsFileName file) {content : Content} (hc : t.find? place = some (.file content)) :
    t.read base (Path.join out file) = content.read := by
  obtain ⟨around, hplace, hlocate⟩ := h.exists_locate_eq hout hfile
  have hend : EndsAtFile t around file place :=
    ⟨hplace, ⟨hfile.notHere, hfile.notUp⟩, h.short, content, hc⟩
  simp only [read, hlocate, hend.walk_eq, hc]

/-- What is read from a place in the directory lies there as a text. -/
theorem Target.find?_of_read (h : Target base out t file place) (hout : out ≠ "")
    (hfile : Path.IsFileName file) {text : String}
    (hread : t.read base (Path.join out file) = .ok text) :
    t.find? place = some (.file (.text text)) := by
  obtain ⟨around, hplace, hlocate⟩ := h.exists_locate_eq hout hfile
  rw [read, hlocate] at hread
  cases hw : t.walk around [file] with
  | error e => simp [hw] at hread
  | ok loc =>
    rw [hw] at hread
    dsimp only at hread
    rcases walk_cons_cases hw with ⟨next, henters, hnext⟩ | ⟨-, hend⟩
    · have hvacant := h.vacant
      cases henters with
      | here => exact absurd rfl hfile.notHere
      | up => exact absurd rfl hfile.notUp
      | down ordinary short directory =>
        rw [hplace, directory] at hvacant
        exact absurd hvacant (by decide)
    · obtain ⟨content, hfound⟩ := hend.found
      rw [hplace, ← hend.place, hfound]
      rw [hfound] at hread
      cases content with
      | text s => rw [Except.ok.inj hread]
      | binary => exact absurd hread (by simp [Content.read])

end

/-- The most that comes of writing some files of the directory at `out`. -/
structure Kept (base : Location) (out : String) (files : List String) (t t' : FileTree) : Prop where
  targets : ∀ file place, Target base out t' file place ↔ Target base out t file place
  others : ∀ file place, Target base out t file place → file ∉ files →
    t'.find? place = t.find? place

variable {base : Location} {out : String} {t t' t'' : FileTree} {files more : List String}

theorem Kept.refl (base : Location) (out : String) (files : List String) (t : FileTree) :
    Kept base out files t t where
  targets _ _ := Iff.rfl
  others _ _ _ _ := rfl

theorem Kept.trans (h : Kept base out files t t') (h' : Kept base out more t' t'') :
    Kept base out (files ++ more) t t'' where
  targets file place := (h'.targets file place).trans (h.targets file place)
  others file place htarget hfile := by
    rw [List.mem_append, not_or] at hfile
    have htarget' := (h.targets file place).mpr htarget
    rw [h'.others file place htarget' hfile.2, h.others file place htarget hfile.1]

theorem Target.kept {file : String} {place : Location} (h : Target base out t file place)
    (content : Content) : Kept base out [file] t (t.put place (.file content)) where
  targets other elsewhere := h.put_iff content
  others other elsewhere h' hne := by
    have hother : elsewhere ≠ place := h'.ne h (by simpa using hne)
    exact find?_put_ne t place elsewhere _ hother

end FileTree

end YangScript
