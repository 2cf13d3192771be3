import YangScript.Disk.Scan
import YangScript.Proofs.StandingDirectories

/-!
# What a scan finds, found again

In a tree that a file system can hold, the path of a file that a scan finds leads to that file. If
the tree changes so that no file of the wanted extension is touched and nothing is lost, the scan
finds the same files, and from each of them the same is read.
-/

set_option autoImplicit false

namespace YangScript.FileTree

/-- A tree that a file system can hold: everything lies in a directory, under a name that can be
looked up there. -/
structure WellFormed (t : FileTree) : Prop where
  parent : ∀ entry ∈ t.items, t.isDirectory entry.1.dropLast = true
  named : ∀ entry ∈ t.items, ∀ name ∈ entry.1,
    Path.IsFileName name ∧ Path.isTooLong name = false

section

variable {t : FileTree} {base loc : Location} {names : List String}

theorem WellFormed.parent_of_find? (hwell : t.WellFormed) {item : Item} (hne : loc ≠ [])
    (h : t.find? loc = some item) : t.isDirectory loc.dropLast = true :=
  hwell.parent _ ((mem_items_iff t hne item).mpr h)

theorem WellFormed.named_of_find? (hwell : t.WellFormed) {item : Item}
    (h : t.find? loc = some item) {name : String} (hname : name ∈ loc) :
    Path.IsFileName name ∧ Path.isTooLong name = false :=
  hwell.named _ ((mem_items_iff t (List.ne_nil_of_mem hname) item).mpr h) name hname

/-- What something lies below is a directory. -/
theorem WellFormed.inside (hwell : t.WellFormed) {item : Item} (hne : names ≠ [])
    (h : t.find? (loc ++ names) = some item) : t.isDirectory loc = true := by
  induction names generalizing loc with
  | nil => exact absurd rfl hne
  | cons name rest ih =>
    have hsplit : loc ++ name :: rest = (loc ++ [name]) ++ rest := by simp
    rw [hsplit] at h
    have hnext : ∃ item, t.find? (loc ++ [name]) = some item := by
      cases rest with
      | nil => exact ⟨item, by simpa using h⟩
      | cons next rest => exact ⟨_, (isDirectory_iff t _).mp (ih (by simp) h)⟩
    obtain ⟨found, hfound⟩ := hnext
    have hparent := hwell.parent_of_find? (by simp) hfound
    rwa [List.dropLast_concat] at hparent

/-- Whatever lies below a location is reached from there by its names. -/
theorem walk_below (hwell : t.WellFormed) {item : Item} (h : t.find? (loc ++ names) = some item) :
    t.walk loc names = .ok (loc ++ names) := by
  induction names generalizing loc with
  | nil => rw [walk, List.append_nil]
  | cons name rest ih =>
    have hmem : name ∈ loc ++ name :: rest := by simp
    obtain ⟨hname, hshort⟩ := hwell.named_of_find? h hmem
    have hsplit : loc ++ name :: rest = (loc ++ [name]) ++ rest := by simp
    rw [hsplit] at h ⊢
    cases rest with
    | nil =>
      rw [List.append_nil] at h ⊢
      cases item with
      | directory =>
        have hdirectory := (isDirectory_iff t _).mpr h
        rw [(Enters.down ⟨hname.notHere, hname.notUp⟩ hshort hdirectory).walk_eq, walk]
      | file content =>
        exact EndsAtFile.walk_eq ⟨rfl, ⟨hname.notHere, hname.notUp⟩, hshort, content, h⟩
    | cons next rest =>
      have hdirectory := hwell.inside (by simp) h
      rw [(Enters.down ⟨hname.notHere, hname.notUp⟩ hshort hdirectory).walk_eq]
      exact ih h

theorem Enters.isDirectory (hwell : t.WellFormed) (hbase : t.isDirectory base = true)
    {name : String} (h : Enters t base name loc) : t.isDirectory loc = true := by
  cases h with
  | here => exact hbase
  | up =>
    by_cases hne : base = []
    · rw [hne]
      rfl
    · exact hwell.parent_of_find? hne ((isDirectory_iff t base).mp hbase)
  | down ordinary short directory => exact directory

/-- A walk ends where something is. -/
theorem exists_of_walk (hwell : t.WellFormed) (hbase : t.isDirectory base = true)
    (h : t.walk base names = .ok loc) : ∃ item, t.find? loc = some item := by
  induction names generalizing base with
  | nil =>
    obtain rfl := Except.ok.inj h
    exact ⟨.directory, (isDirectory_iff t base).mp hbase⟩
  | cons name rest ih =>
    rcases walk_cons_cases h with ⟨next, henters, hnext⟩ | ⟨-, hfile⟩
    · exact ih (henters.isDirectory hwell hbase) hnext
    · obtain ⟨content, hfound⟩ := hfile.found
      exact ⟨_, hfound⟩

theorem exists_of_locate (hwell : t.WellFormed) {path : String}
    (hbase : t.isDirectory (origin base path) = true) (h : t.locate base path = .ok loc) :
    ∃ item, t.find? loc = some item := by
  rw [locate] at h
  split at h
  · exact absurd h (by simp)
  · exact exists_of_walk hwell hbase h

theorem below?_eq_some {directory : Location} (h : below? directory loc = some names) :
    loc = directory ++ names ∧ names ≠ [] := by
  rw [below?] at h
  split at h
  · rename_i hprefix
    obtain ⟨rest, rfl⟩ := List.isPrefixOf_iff_prefix.mp hprefix
    rw [List.drop_left] at h
    cases rest with
    | nil => exact absurd h (by simp)
    | cons name rest =>
      rw [← Option.some.inj h]
      exact ⟨rfl, by simp⟩
  · exact absurd h (by simp)

theorem found?_eq_some {path extension file : String} {directory : Location}
    {entry : Location × Item} (h : found? path directory extension entry = some file) :
    ∃ content names, entry = (directory ++ names, .file content) ∧ names ≠ [] ∧
      hasExtension extension (directory ++ names) = true ∧
      file = Path.join path (Text.join "/" names) := by
  obtain ⟨loc, item⟩ := entry
  rw [found?] at h
  split at h
  · rename_i content names hitem hbelow
    obtain ⟨hloc, hne⟩ := below?_eq_some hbelow
    dsimp only at hitem hloc h
    subst hitem hloc
    split at h
    · rename_i hextension
      exact ⟨content, names, rfl, hne, hextension, (Option.some.inj h).symm⟩
    · exact absurd h (by simp)
  · exact absurd h (by simp)

/-- The path of a file that is found in a directory leads to it, unless it is refused. -/
theorem locate_found (hwell : t.WellFormed) {path : String} (hpath : path ≠ "")
    {directory : Location} (hlocate : t.locate base path = .ok directory)
    (hdirectory : t.isDirectory directory = true) (hne : names ≠ []) {content : Content}
    (hfound : t.find? (directory ++ names) = some (.file content))
    (hallowed : Path.refusal? (Path.join path (Text.join "/" names)) = none) :
    t.locate base (Path.join path (Text.join "/" names)) = .ok (directory ++ names) := by
  have hnames : ∀ name ∈ names, Path.IsFileName name := fun name hname =>
    (hwell.named_of_find? hfound (List.mem_append_right _ hname)).1
  obtain ⟨hrelative, hpresent, hsteps⟩ := Path.steps_names hne hnames
  have hwalk : t.walk (origin base path) (Path.names path ++ ["."]) = .ok directory := by
    rw [locate] at hlocate
    cases hrefusal : Path.refusal? path with
    | some e => simp [hrefusal] at hlocate
    | none =>
      rw [hrefusal, Path.steps] at hlocate
      dsimp only at hlocate
      split at hlocate
      · exact hlocate
      · exact walk_here hlocate hdirectory
  rw [locate, hallowed, origin_join hpath hrelative, Path.steps_join_relative hrelative _ hpresent,
    hsteps]
  change t.walk (origin base path) (Path.names path ++ names) = _
  rw [walk_append hwalk]
  exact walk_below hwell hfound

end

/-- Nothing is lost from the one tree to the other. New directories may appear where nothing was,
and files without the extension may be new or hold something else. -/
def Spares (extension : String) (t t' : FileTree) : Prop :=
  ∀ loc, t'.find? loc = t.find? loc ∨
    (t.find? loc = none ∧ t'.find? loc = some .directory) ∨
    (hasExtension extension loc = false ∧ t.isDirectory loc = false ∧
      ∃ content, t'.find? loc = some (.file content))

namespace Spares

variable {extension : String} {t t' : FileTree} (h : Spares extension t t')

include h

variable {base loc : Location}

theorem keepsDirectories : KeepsDirectories t t' := by
  intro loc hloc
  rcases h loc with hsame | ⟨hnone, -⟩ | ⟨-, hvacant, -⟩
  · rw [isDirectory, hsame]
    exact hloc
  · rw [isDirectory_iff, hnone] at hloc
    exact absurd hloc (by simp)
  · rw [hvacant] at hloc
    exact absurd hloc (by simp)

theorem exists_file {content : Content} (hfound : t.find? loc = some (.file content)) :
    ∃ content', t'.find? loc = some (.file content') := by
  rcases h loc with hsame | ⟨hnone, -⟩ | ⟨-, -, hnew⟩
  · exact ⟨content, hsame.trans hfound⟩
  · rw [hnone] at hfound
    exact absurd hfound (by simp)
  · exact hnew

theorem file_iff (hextension : hasExtension extension loc = true) (content : Content) :
    t'.find? loc = some (.file content) ↔ t.find? loc = some (.file content) := by
  rcases h loc with hsame | ⟨hnone, hnew⟩ | ⟨hother, -⟩
  · rw [hsame]
  · rw [hnone, hnew]
    simp
  · rw [hextension] at hother
    exact absurd hother (by simp)

theorem isDirectory_eq {item : Item} (hfound : t.find? loc = some item) :
    t'.isDirectory loc = t.isDirectory loc := by
  cases item with
  | directory =>
    have hdirectory := (isDirectory_iff t loc).mpr hfound
    rw [hdirectory, h.keepsDirectories loc hdirectory]
  | file content =>
    obtain ⟨content', hfound'⟩ := h.exists_file hfound
    rw [isDirectory, isDirectory, hfound, hfound']
    rfl

theorem walk_eq {names : List String} (hw : t.walk base names = .ok loc) :
    t'.walk base names = .ok loc := by
  induction names generalizing base with
  | nil => exact hw
  | cons name rest ih =>
    rcases walk_cons_cases hw with ⟨next, henters, hnext⟩ | ⟨rfl, hfile⟩
    · rw [(henters.kept h.keepsDirectories).walk_eq]
      exact ih hnext
    · obtain ⟨content, hfound⟩ := hfile.found
      exact EndsAtFile.walk_eq { hfile with found := h.exists_file hfound }

theorem locate_eq {path : String} (hl : t.locate base path = .ok loc) :
    t'.locate base path = .ok loc := by
  rw [locate] at hl ⊢
  cases hrefusal : Path.refusal? path with
  | some e => simp [hrefusal] at hl
  | none =>
    rw [hrefusal] at hl
    exact h.walk_eq hl

/-- The files that a scan finds in a directory are all there still, and no others. -/
theorem filterMap_found?_eq (path : String) (directory : Location) :
    t'.items.filterMap (found? path directory extension) =
      t.items.filterMap (found? path directory extension) := by
  let wanted := fun entry => (found? path directory extension entry).isSome
  have hwanted : (fun entry => if wanted entry = true then found? path directory extension entry
      else none) = found? path directory extension := by
    funext entry
    cases hfound : found? path directory extension entry with
    | none => simp [wanted, hfound]
    | some file => simp [wanted, hfound]
  have hfilter : ∀ items : List (Location × Item),
      items.filterMap (found? path directory extension) =
        (items.filter wanted).filterMap (found? path directory extension) := by
    intro items
    rw [List.filterMap_filter, hwanted]
  have hsame : t'.items.filter wanted = t.items.filter wanted := by
    have hsorted : ∀ u : FileTree, Keyed.Sorted Prod.fst (u.items.filter wanted) :=
      fun u => List.Pairwise.sublist List.filter_sublist u.sorted
    refine (hsorted t').eq_of_mem_iff (hsorted t) fun entry => ?_
    rw [List.mem_filter, List.mem_filter]
    refine and_congr_left fun hwanted => ?_
    obtain ⟨file, hfile⟩ := Option.isSome_iff_exists.mp hwanted
    obtain ⟨content, names, rfl, hne, hextension, -⟩ := found?_eq_some hfile
    have hloc : directory ++ names ≠ [] := by simp [hne]
    rw [mem_items_iff t' hloc, mem_items_iff t hloc, h.file_iff hextension]
  rw [hfilter, hfilter t.items, hsame]

/-- What is read from a file with the extension is what was read before. -/
theorem read_eq {file : String} (hl : t.locate base file = .ok loc)
    (hextension : hasExtension extension loc = true) {content : Content}
    (hfound : t.find? loc = some (.file content)) : t'.read base file = t.read base file := by
  rw [read, read, hl, h.locate_eq hl]
  simp only [hfound, (h.file_iff hextension content).mpr hfound]

end Spares

section

variable {t t' : FileTree} {base : Location} {path extension : String} {files : List String}

theorem Spares.scan_eq (h : Spares (Path.dropLeadingDots extension) t t') (hwell : t.WellFormed)
    (hbase : t.isDirectory (origin base path) = true)
    (hscan : t.scan base path extension = .ok files) :
    t'.scan base path extension = .ok files := by
  rw [scan] at hscan ⊢
  cases hlocate : t.locate base path with
  | error e => simp [hlocate] at hscan
  | ok loc =>
    obtain ⟨item, hfound⟩ := exists_of_locate hwell hbase hlocate
    rw [hlocate] at hscan
    rw [h.locate_eq hlocate]
    dsimp only at hscan ⊢
    rw [h.isDirectory_eq hfound, h.filterMap_found?_eq]
    exact hscan

/-- From every file that a scan finds the same is read. -/
theorem Spares.read_scanned (h : Spares (Path.dropLeadingDots extension) t t')
    (hwell : t.WellFormed) (hbase : t.isDirectory (origin base path) = true) (hpath : path ≠ "")
    (hscan : t.scan base path extension = .ok files) :
    ∀ file ∈ files, t'.read base file = t.read base file := by
  intro file hfile
  rw [scan] at hscan
  cases hlocate : t.locate base path with
  | error e => simp [hlocate] at hscan
  | ok loc =>
    rw [hlocate] at hscan
    dsimp only at hscan
    split at hscan
    · rename_i hdirectory
      rw [← Except.ok.inj hscan, List.mem_filterMap] at hfile
      obtain ⟨entry, hentry, hfound⟩ := hfile
      obtain ⟨content, names, rfl, hne, hextension, rfl⟩ := found?_eq_some hfound
      have hloc : loc ++ names ≠ [] := by simp [hne]
      rw [mem_items_iff t hloc] at hentry
      cases hallowed : Path.refusal? (Path.join path (Text.join "/" names)) with
      | some e => rw [read, read, locate, locate, hallowed]
      | none =>
        have hfile := locate_found hwell hpath hlocate hdirectory hne hentry hallowed
        exact h.read_eq hfile hextension hentry
    · rename_i hvacant
      rw [← Except.ok.inj hscan] at hfile
      split at hfile
      · rename_i hextension
        obtain rfl := List.mem_singleton.mp hfile
        obtain ⟨item, hfound⟩ := exists_of_locate hwell hbase hlocate
        cases item with
        | directory => exact absurd ((isDirectory_iff t loc).mpr hfound) hvacant
        | file content => exact h.read_eq hlocate hextension hfound
      · exact absurd hfile (by simp)

end

end YangScript.FileTree
