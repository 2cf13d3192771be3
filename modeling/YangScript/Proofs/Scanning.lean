import YangScript.Proofs.FoundFiles

/-!
# What a scan finds

A scan is specified by a walk that comes to everything at and below a path once, in an order of
which nothing is known, since a directory may list its entries anyhow. Of what it comes to, the
files with the extension are kept, and their paths are sorted name by name at the end. The scan of a
tree gives that result without sorting anything, as a tree keeps its locations in order. Names
decide the order, not the texts of the paths: what lies in `a` stands before `a-b`, although a
hyphen comes before a slash.
-/

set_option autoImplicit false

namespace YangScript

namespace Path

/-- The path of what lies some names below the item at `path`. -/
def below (path : String) (names : List String) : String :=
  if names.isEmpty then path else join path (Text.join "/" names)

/-- The extension of the last name in a path. -/
def extensionOf? (path : String) : Option String := (names path).getLast?.bind extension?

theorem names_below (path : String) {files : List String} (h : ∀ file ∈ files, IsFileName file) :
    names (below path files) = names path ++ files := by
  rw [below]
  split
  · rename_i hempty
    rw [List.isEmpty_iff.mp hempty, List.append_nil]
  · rename_i hne
    rw [List.isEmpty_iff] at hne
    rw [names_join_relative (steps_names hne h).1, names_text_join hne h]

end Path

namespace FileTree

/-- Whether a walk from `loc`, which is at `path`, keeps what it finds at the end of some names. -/
def keeps (t : FileTree) (loc : Location) (path extension : String) (names : List String) : Bool :=
  match t.find? (loc ++ names) with
  | some (.file _) => decide (Path.extensionOf? (Path.below path names) = some extension)
  | _ => false

/-- The result of a walk from `loc`, which is at `path`: what it has come to, given by the names on
the way, is sifted and then sorted. -/
def collect (t : FileTree) (loc : Location) (path extension : String)
    (visited : List (List String)) : List String :=
  Keyed.sort Path.names ((visited.filter (t.keeps loc path extension)).map (Path.below path))

section

variable {t : FileTree} {base cwd loc : Location} {path extension : String} {names : List String}

theorem keeps_iff : t.keeps loc path extension names = true ↔
    ∃ content, t.find? (loc ++ names) = some (.file content) ∧
      Path.extensionOf? (Path.below path names) = some extension := by
  rw [keeps]
  split
  · rename_i content hfound
    rw [hfound, decide_eq_true_iff]
    simp
  · rename_i hnot
    refine iff_of_false (by simp) ?_
    rintro ⟨content, hfound, -⟩
    exact hnot content hfound

theorem lt_of_append_left_lt {front names names' : List String}
    (h : front ++ names < front ++ names') : names < names' := by
  induction front with
  | nil => exact h
  | cons _ front ih =>
    rcases List.cons_lt_cons_iff.mp h with hlt | ⟨-, hrest⟩
    · exact absurd hlt (String.lt_irrefl _)
    · exact ih hrest

/-- What is found in the tree and its path. -/
theorem exists_of_found? {entry : Location × Item} {file : String} (hentry : entry ∈ t.items)
    (h : found? path loc extension entry = some file) :
    ∃ content names, entry.1 = loc ++ names ∧ t.find? (loc ++ names) = some (.file content) ∧
      hasExtension extension (loc ++ names) = true ∧ file = Path.below path names := by
  obtain ⟨content, names, rfl, hne, hextension, rfl⟩ := found?_eq_some h
  rw [mem_items_iff t (by simp [hne])] at hentry
  refine ⟨content, names, rfl, hentry, hextension, ?_⟩
  rw [Path.below, if_neg (by simpa using hne)]

variable (hwell : t.WellFormed)

include hwell

theorem names_below_of_find? {item : Item} (h : t.find? (loc ++ names) = some item) :
    Path.names (Path.below path names) = Path.names path ++ names :=
  Path.names_below path fun _ hname =>
    (hwell.named_of_find? h (List.mem_append_right loc hname)).1

/-- Two items below one location are told apart by the names in their paths. -/
theorem eq_of_names_below {names' : List String} {item item' : Item}
    (h : t.find? (loc ++ names) = some item) (h' : t.find? (loc ++ names') = some item')
    (heq : Path.names (Path.below path names) = Path.names (Path.below path names')) :
    names = names' := by
  rw [names_below_of_find? hwell h, names_below_of_find? hwell h'] at heq
  exact List.append_cancel_left heq

/-- A tree keeps its locations in order, and a location below a directory goes on from it. -/
theorem sorted_filterMap_found? (path extension : String) (loc : Location) :
    Keyed.Sorted Path.names (t.items.filterMap (found? path loc extension)) := by
  rw [Keyed.Sorted, List.pairwise_filterMap]
  refine t.sorted.imp_of_mem fun {entry entry'} hentry hentry' hlt file hfile file' hfile' => ?_
  obtain ⟨content, names, hloc, hfound, -, rfl⟩ := exists_of_found? hentry hfile
  obtain ⟨content', names', hloc', hfound', -, rfl⟩ := exists_of_found? hentry' hfile'
  rw [hloc, hloc'] at hlt
  rw [names_below_of_find? hwell hfound, names_below_of_find? hwell hfound']
  exact List.append_left_lt (lt_of_append_left_lt hlt)

/-- A walk that ends at a file ends with its name. -/
theorem getLast?_of_walk (hbase : t.isDirectory base = true) (h : t.walk base names = .ok loc)
    (hfile : t.isDirectory loc = false) : names.getLast? = loc.getLast? := by
  induction names generalizing base with
  | nil =>
    obtain rfl := Except.ok.inj h
    exact absurd hbase (by simp [hfile])
  | cons name rest ih =>
    rcases walk_cons_cases h with ⟨next, henters, hrest⟩ | ⟨rfl, hends⟩
    · have hnext := henters.isDirectory hwell hbase
      have hne : rest ≠ [] := by
        rintro rfl
        obtain rfl := Except.ok.inj hrest
        exact absurd hnext (by simp [hfile])
      rw [← ih hnext hrest, List.getLast?_cons_of_ne_nil hne]
    · rw [hends.place]
      simp

variable (hcwd : t.isDirectory cwd = true) (hlocate : t.locate cwd path = .ok loc)

include hcwd

omit hwell in
theorem isDirectory_origin (path : String) : t.isDirectory (origin cwd path) = true := by
  rw [origin]
  split
  · rfl
  · exact hcwd

include hlocate

/-- The path of a file ends with its name. -/
theorem getLast?_of_locate {content : Content} (hfound : t.find? loc = some (.file content)) :
    (Path.names path).getLast? = loc.getLast? := by
  have hfile : t.isDirectory loc = false := by simp [isDirectory, hfound]
  rw [locate] at hlocate
  split at hlocate
  · exact absurd hlocate (by simp)
  · have hlast := getLast?_of_walk hwell (isDirectory_origin hcwd path) hlocate hfile
    rw [Path.steps] at hlast
    split at hlast
    · -- A slash at the end asks for a directory.
      rw [List.getLast?_concat] at hlast
      have hmem := List.mem_of_getLast? hlast.symm
      exact absurd rfl (hwell.named_of_find? hfound hmem).1.notHere
    · exact hlast

theorem hasExtension_iff {content : Content}
    (hfound : t.find? (loc ++ names) = some (.file content)) :
    hasExtension extension (loc ++ names) = true ↔
      Path.extensionOf? (Path.below path names) = some extension := by
  have hlast : (Path.names (Path.below path names)).getLast? = (loc ++ names).getLast? := by
    rw [names_below_of_find? hwell hfound]
    by_cases hne : names = []
    · subst hne
      rw [List.append_nil] at hfound ⊢
      rw [List.append_nil]
      exact getLast?_of_locate hwell hcwd hlocate hfound
    · obtain ⟨front, name, rfl⟩ := (List.eq_nil_or_concat names).resolve_left hne
      simp [← List.append_assoc]
  rw [hasExtension, Path.extensionOf?, hlast]
  cases (loc ++ names).getLast? <;> simp

/-- What a scan of a directory finds in it. -/
theorem mem_filterMap_found?_iff (hdirectory : t.isDirectory loc = true) (file : String) :
    file ∈ t.items.filterMap (found? path loc extension) ↔
      ∃ names, t.keeps loc path extension names = true ∧ file = Path.below path names := by
  rw [List.mem_filterMap]
  constructor
  · rintro ⟨entry, hentry, hfile⟩
    obtain ⟨content, names, -, hfound, hextension, rfl⟩ := exists_of_found? hentry hfile
    have hkept := (hasExtension_iff hwell hcwd hlocate hfound).mp hextension
    exact ⟨names, keeps_iff.mpr ⟨content, hfound, hkept⟩, rfl⟩
  · rintro ⟨names, hkeeps, rfl⟩
    obtain ⟨content, hfound, hextension⟩ := keeps_iff.mp hkeeps
    have hne : names ≠ [] := by
      rintro rfl
      rw [List.append_nil] at hfound
      exact absurd hdirectory (by simp [isDirectory, hfound])
    refine ⟨(loc ++ names, .file content), (mem_items_iff t (by simp [hne]) _).mpr hfound, ?_⟩
    have hbelow : below? loc (loc ++ names) = some names := by
      have hprefix : loc.isPrefixOf (loc ++ names) = true :=
        List.isPrefixOf_iff_prefix.mpr (List.prefix_append loc names)
      rw [below?, if_pos hprefix, List.drop_left]
      cases names with
      | nil => exact absurd rfl hne
      | cons name rest => rfl
    rw [found?, hbelow, Path.below, if_neg (by simpa using hne)]
    simp only [(hasExtension_iff hwell hcwd hlocate hfound).mpr hextension, if_true]

/-- A file that is scanned itself is the only one that can be found. -/
theorem mem_scanned_file_iff {content : Content} (hfound : t.find? loc = some (.file content))
    (file : String) :
    file ∈ (if hasExtension extension loc then [path] else []) ↔
      ∃ names, t.keeps loc path extension names = true ∧ file = Path.below path names := by
  have hself : hasExtension extension loc = true ↔ t.keeps loc path extension [] = true := by
    have hhere : t.find? (loc ++ []) = some (.file content) := by rwa [List.append_nil]
    have hsame : hasExtension extension (loc ++ []) = true ↔ _ :=
      hasExtension_iff hwell hcwd hlocate hhere
    rw [List.append_nil] at hsame
    simp [hsame, keeps, hfound]
  have honly : ∀ names, t.keeps loc path extension names = true → names = [] := by
    intro names hkeeps
    obtain ⟨content', hbelow, -⟩ := keeps_iff.mp hkeeps
    refine Decidable.byContradiction fun hne => ?_
    have hdirectory := hwell.inside hne hbelow
    exact absurd hdirectory (by simp [isDirectory, hfound])
  constructor
  · intro hfile
    split at hfile
    · rename_i hextension
      exact ⟨[], hself.mp hextension, List.mem_singleton.mp hfile⟩
    · exact absurd hfile (by simp)
  · rintro ⟨names, hkeeps, rfl⟩
    obtain rfl := honly names hkeeps
    rw [if_pos (hself.mpr hkeeps)]
    exact List.mem_singleton_self path

/-- What a scan returns: the files that a walk from the path keeps, in the order of their names. -/
theorem scan_of_locate (extension : String) :
    ∃ files, t.scan cwd path extension = .ok files ∧ Keyed.Sorted Path.names files ∧
      ∀ file, file ∈ files ↔ ∃ names,
        t.keeps loc path (Path.dropLeadingDots extension) names = true ∧
          file = Path.below path names := by
  obtain ⟨item, hitem⟩ := exists_of_locate hwell (isDirectory_origin hcwd path) hlocate
  rw [scan, hlocate]
  dsimp only
  cases item with
  | directory =>
    have hdirectory := (isDirectory_iff t loc).mpr hitem
    rw [if_pos hdirectory]
    exact ⟨_, rfl, sorted_filterMap_found? hwell path _ loc,
      mem_filterMap_found?_iff hwell hcwd hlocate hdirectory⟩
  | file content =>
    rw [if_neg (by simp [isDirectory, hitem])]
    refine ⟨_, rfl, ?_, mem_scanned_file_iff hwell hcwd hlocate hitem⟩
    split
    · exact List.pairwise_singleton _ _
    · exact List.Pairwise.nil

omit hcwd hlocate

/-- Whatever the order of a walk, sorting what it keeps gives one list. -/
theorem collect_eq {files : List String} (hsorted : Keyed.Sorted Path.names files)
    (hfiles : ∀ file, file ∈ files ↔ ∃ names,
      t.keeps loc path extension names = true ∧ file = Path.below path names)
    {visited : List (List String)} (hnodup : visited.Nodup)
    (hvisited : ∀ names, names ∈ visited ↔ ∃ item, t.find? (loc ++ names) = some item) :
    t.collect loc path extension visited = files := by
  have hdistinct :
      (((visited.filter (t.keeps loc path extension)).map (Path.below path)).map
        Path.names).Nodup := by
    rw [List.map_map, List.Nodup, List.pairwise_map]
    refine (hnodup.filter _).imp_of_mem fun {names names'} hnames hnames' hne heq => hne ?_
    obtain ⟨item, hfound⟩ := (hvisited names).mp (List.mem_filter.mp hnames).1
    obtain ⟨item', hfound'⟩ := (hvisited names').mp (List.mem_filter.mp hnames').1
    exact eq_of_names_below hwell hfound hfound' heq
  refine (Keyed.sorted_sort hdistinct).eq_of_mem_iff hsorted fun file => ?_
  rw [Keyed.mem_sort, List.mem_map, hfiles]
  constructor
  · rintro ⟨names, hnames, rfl⟩
    exact ⟨names, (List.mem_filter.mp hnames).2, rfl⟩
  · rintro ⟨names, hkeeps, rfl⟩
    obtain ⟨content, hfound, -⟩ := keeps_iff.mp hkeeps
    exact ⟨names, List.mem_filter.mpr ⟨(hvisited names).mpr ⟨_, hfound⟩, hkeeps⟩, rfl⟩

end

end FileTree

/-- A scan fails if and only if the path leads to nothing. Otherwise it returns the path of every
file at or below the path whose extension is the wanted one without its leading dots, and nothing
else, strictly increasing name by name. A walk that comes once to everything at or below the path,
in any order at all, has this result. -/
theorem scan_finds_matching_files {t : FileTree} {cwd : Location} (path extension : String)
    (hwell : t.WellFormed) (hcwd : t.isDirectory cwd = true) :
    ((∃ e, t.scan cwd path extension = .error e) ↔
      ¬ ∃ loc item, t.locate cwd path = .ok loc ∧ t.find? loc = some item) ∧
    ∀ loc, t.locate cwd path = .ok loc →
      ∃ files, t.scan cwd path extension = .ok files ∧
        (∀ file, file ∈ files ↔ ∃ names content,
          t.find? (loc ++ names) = some (.file content) ∧ file = Path.below path names ∧
            Path.extensionOf? file = some (Path.dropLeadingDots extension)) ∧
        files.Pairwise (fun a b => Path.names a < Path.names b) ∧
        ∀ visited : List (List String), visited.Nodup →
          (∀ names, names ∈ visited ↔ ∃ item, t.find? (loc ++ names) = some item) →
            t.collect loc path (Path.dropLeadingDots extension) visited = files := by
  constructor
  · cases hlocate : t.locate cwd path with
    | error cause =>
      refine iff_of_true ⟨⟨path, cause⟩, ?_⟩ (by simp)
      rw [FileTree.scan, hlocate]
    | ok loc =>
      obtain ⟨files, hscan, -⟩ := FileTree.scan_of_locate hwell hcwd hlocate extension
      obtain ⟨item, hitem⟩ :=
        FileTree.exists_of_locate hwell (FileTree.isDirectory_origin hcwd path) hlocate
      refine iff_of_false (by simp [hscan]) fun hnone => hnone ⟨loc, item, rfl, hitem⟩
  · intro loc hlocate
    obtain ⟨files, hscan, hsorted, hfiles⟩ := FileTree.scan_of_locate hwell hcwd hlocate extension
    refine ⟨files, hscan, fun file => ?_, hsorted, fun visited hnodup hvisited => ?_⟩
    · rw [hfiles]
      constructor
      · rintro ⟨names, hkeeps, rfl⟩
        obtain ⟨content, hfound, hextension⟩ := FileTree.keeps_iff.mp hkeeps
        exact ⟨names, content, hfound, rfl, hextension⟩
      · rintro ⟨names, content, hfound, rfl, hextension⟩
        exact ⟨names, FileTree.keeps_iff.mpr ⟨content, hfound, hextension⟩, rfl⟩
    · exact FileTree.collect_eq hwell hsorted hfiles hnodup hvisited

/-- A directory `in` with a document of its own and one in a directory whose name is the beginning
of the other's. -/
def forkedTree : FileTree :=
  (FileTree.empty.place ["in", "a", "z.xml"] (.file .binary)).place ["in", "a-b.xml"]
    (.file .binary)

theorem forkedTree_items :
    forkedTree.items = [(["in"], .directory), (["in", "a"], .directory),
      (["in", "a", "z.xml"], .file .binary), (["in", "a-b.xml"], .file .binary)] := rfl

theorem wellFormed_forkedTree : forkedTree.WellFormed := by
  have hnames : ∀ name ∈ ["in", "a", "z.xml", "a-b.xml"],
      Path.IsFileName name ∧ Path.isTooLong name = false := by
    simp only [List.forall_mem_cons]
    exact ⟨⟨⟨by decide, by decide, by decide, by decide⟩, rfl⟩,
      ⟨⟨by decide, by decide, by decide, by decide⟩, rfl⟩,
      ⟨⟨by decide, by decide, by decide, by decide⟩, rfl⟩,
      ⟨⟨by decide, by decide, by decide, by decide⟩, rfl⟩, by simp⟩
  have hlocations : ∀ entry ∈ forkedTree.items, entry.1 ⊆ ["in", "a", "z.xml", "a-b.xml"] := by
    simp [forkedTree_items]
  constructor
  · rw [forkedTree_items]
    simp only [List.forall_mem_cons]
    exact ⟨rfl, rfl, rfl, rfl, by simp⟩
  · intro entry hentry name hname
    exact hnames name (hlocations entry hentry hname)

/-- The scan and a walk that comes to the entries of `in` in another order. -/
theorem scan_finds_matching_files_forkedTree :
    forkedTree.WellFormed ∧ forkedTree.isDirectory [] = true ∧
      forkedTree.locate [] "in" = .ok ["in"] ∧
      forkedTree.scan [] "in" ".xml" = .ok ["in/a/z.xml", "in/a-b.xml"] ∧
      forkedTree.collect ["in"] "in" "xml" [[], ["a-b.xml"], ["a"], ["a", "z.xml"]] =
        ["in/a/z.xml", "in/a-b.xml"] := by
  have hlocate : forkedTree.locate [] "in" = .ok ["in"] := rfl
  have hresult : forkedTree.scan [] "in" ".xml" = .ok ["in/a/z.xml", "in/a-b.xml"] := rfl
  have hvisited : ∀ names, names ∈ [[], ["a-b.xml"], ["a"], ["a", "z.xml"]] ↔
      ∃ item, forkedTree.find? (["in"] ++ names) = some item := by
    intro names
    have hitems : ∀ item, forkedTree.find? (["in"] ++ names) = some item ↔
        (["in"] ++ names, item) ∈ forkedTree.items :=
      fun item => (forkedTree.mem_items_iff (by simp) item).symm
    simp only [hitems, forkedTree_items]
    constructor
    · intro hmem
      simp only [List.mem_cons, List.not_mem_nil, or_false] at hmem
      rcases hmem with rfl | rfl | rfl | rfl <;> simp
    · rintro ⟨item, hmem⟩
      simp only [List.cons_append, List.nil_append, List.mem_cons, Prod.mk.injEq, List.cons.injEq,
        true_and, List.not_mem_nil, or_false] at hmem
      rcases hmem with hmem | hmem | hmem | hmem <;> simp [hmem.1]
  obtain ⟨files, hscan, -, -, hwalk⟩ :=
    (scan_finds_matching_files "in" ".xml" wellFormed_forkedTree rfl).2 _ hlocate
  obtain rfl := Except.ok.inj (hresult.symm.trans hscan)
  exact ⟨wellFormed_forkedTree, rfl, hlocate, hresult, hwalk _ (by decide) hvisited⟩

end YangScript
