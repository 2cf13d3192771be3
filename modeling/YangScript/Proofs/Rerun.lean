import YangScript.Proofs.Accounting
import YangScript.Proofs.Confinement
import YangScript.Proofs.FoundFiles

/-!
# Running again

No file that a run writes has the extension that it scans for, unless that is the extension of what
it writes. So a second run over the tree that the first one leaves finds the same files, reads the
same from them, has the output directory already, and finds every text that it writes in its place:
it comes to the same summary and changes nothing.
-/

set_option autoImplicit false

namespace YangScript

/-- The extension of a file that is written. -/
theorem Path.extension?_append_ts {name : String} (h : name ≠ "") :
    Path.extension? (name ++ ".ts") = some "ts" := by
  have hchars : name.toList.reverse ≠ [] := by simpa using h
  have hreversed : (name ++ ".ts").toList.reverse = 's' :: 't' :: '.' :: name.toList.reverse := by
    simp
  obtain ⟨c, cs, hcons⟩ := List.exists_cons_of_ne_nil hchars
  rw [extension?, hreversed, hcons]
  rfl

namespace FileTree

/-- Writing what is read already changes nothing. -/
theorem tree_of_write_read {t : FileTree} {base : Location} {out file text : String} (hout : out ≠ "") (hfile : Path.IsFileName file)
    (hwrite : (t.write base (Path.join out file) text).result = .ok ())
    (hread : t.read base (Path.join out file) = .ok text) :
    (t.write base (Path.join out file) text).tree = t := by
  obtain ⟨place, hplace⟩ := exists_target hout hfile hwrite
  rw [hplace.write_eq hout hfile]
  exact put_eq_self t (ne_nil_of_not_isDirectory hplace.vacant)
    (hplace.find?_of_read hout hfile hread)

end FileTree

/-- Writing some files again, each with the text that is read from it already. -/
theorem applyAll_filesOf_eq {options : SourceOptions} {base : Location} {out : String}
    {t : FileTree} {ws : List (Module × String)} (hout : out ≠ "")
    (hready : ∀ w ∈ ws, (w.1.prepare options).value = .ready (w.1.name ++ ".ts") w.2)
    (hread : ∀ w ∈ ws, (t.write base (outputFile out w.1.name) w.2).result = .ok () →
      t.read base (outputFile out w.1.name) = .ok w.2)
    (hpossible : Effect.Possible base (filesOf out ws) t) :
    Effect.applyAll base (filesOf out ws) t = t := by
  induction ws with
  | nil => rfl
  | cons w ws ih =>
    obtain ⟨hw, hws⟩ := List.forall_mem_cons.mp hready
    obtain ⟨hfirst, hrest⟩ := List.forall_mem_cons.mp hread
    obtain ⟨hwrite, hpossible⟩ := hpossible
    have hsame : Effect.apply base t (.file (outputFile out w.1.name) w.2) = t :=
      FileTree.tree_of_write_read hout (Module.isFileName_of_ready hw) hwrite (hfirst hwrite)
    rw [hsame] at hpossible
    change Effect.applyAll base (filesOf out ws) (Effect.apply base t _) = t
    rw [hsame]
    exact ih hws hrest hpossible

section

variable {t t' : FileTree} {base : Location} {options : Options} {out : String}
  {files : List String}

/-- A run touches no file of another extension than that of what it writes. -/
theorem spares_of_written {docs : List (String × Module)} {r : Registry}
    {ws : List (Module × String)} (hextension : Path.dropLeadingDots options.extension ≠ "ts")
    (hholds : r.Holds docs) (hsub : (ws.map Prod.fst).Sublist r.modules)
    (hready : ∀ w ∈ ws, (w.1.prepare options.source).value = .ready (w.1.name ++ ".ts") w.2)
    (h : Written base out ws (t.makeDirs base out).tree t') :
    FileTree.Spares (Path.dropLeadingDots options.extension) t t' := by
  intro loc
  rcases find?_of_written hholds hsub hready h loc with
    hsame | ⟨hnone, hnew, -⟩ |
    ⟨around, source, m, text, -, rfl, ⟨hname, -⟩, -, -, -, hvacant, hfound⟩
  · exact Or.inl hsame
  · exact Or.inr (Or.inl ⟨hnone, hnew⟩)
  · refine Or.inr (Or.inr ⟨?_, by simpa [FileTree.isDirectory] using hvacant, _, hfound⟩)
    rw [FileTree.hasExtension, List.getLast?_concat]
    dsimp only
    rw [Path.extension?_append_ts hname]
    simpa using fun h => hextension h.symm

theorem documents_congr (h : ∀ file ∈ files, t'.read base file = t.read base file) :
    documents t' base files = documents t base files := by
  induction files with
  | nil => rfl
  | cons file files ih =>
    obtain ⟨hfile, hfiles⟩ := List.forall_mem_cons.mp h
    have hrest := ih hfiles
    rw [documents] at hrest ⊢
    rw [documents, List.filterMap_cons, List.filterMap_cons, hfile, hrest, documents]

theorem unloadable_congr (h : ∀ file ∈ files, t'.read base file = t.read base file) :
    unloadable t' base files = unloadable t base files := by
  rw [unloadable, unloadable]
  exact List.filter_congr fun file hfile => by rw [h file hfile]

theorem failing_kept {source : SourceOptions} (hout : out ≠ "") {names : List String}
    (h : FileTree.Kept base out names t t') (ms : List Module) :
    failing source base out t' ms = failing source base out t ms := by
  rw [failing, failing]
  exact List.filter_congr fun m _ => by rw [h.isWritten_eq hout m]

/-- A run that has its output directory, and reads from every file that it would write what it
would write there, changes nothing. -/
theorem runFiles_tree_eq (hbail : options.bail = false) (hout : out ≠ "")
    (hdirs : t.makeDirs base out = ⟨.ok (), t⟩) {r : Registry}
    (hholds : r.Holds (documents t base files))
    (hread : ∀ m ∈ r.modules, ∀ text,
      (m.prepare options.source).value = .ready (m.name ++ ".ts") text →
        m.isWritten options.source base out t = true →
          t.read base (outputFile out m.name) = .ok text) :
    ((runFiles options out files).perform base t).tree = t := by
  obtain ⟨r', es, hholds', ⟨ws, rfl, hsub, hready⟩, heffects⟩ := runFiles_does hbail out files t
  have hpossible := Job.possible_effects base (runFiles options out files) t
  have hmade : Effect.apply base t (.directory out) = t := by rw [Effect.apply, hdirs]
  rw [heffects, Effect.Possible, hmade] at hpossible
  rw [Job.perform_tree, heffects]
  change Effect.applyAll base (filesOf out ws) (Effect.apply base t _) = t
  rw [hmade]
  refine applyAll_filesOf_eq hout hready (fun w hw hwrite => ?_) hpossible
  have hmem : w.1 ∈ r.modules := by
    rw [hholds.modules_eq hholds']
    exact hsub.subset (List.mem_map_of_mem hw)
  exact hread w.1 hmem w.2 (hready w hw) (Module.isWritten_iff.mpr ⟨w.2, hready w hw, hwrite⟩)

/-- What a run over some files leaves once it has its output directory. -/
theorem runFiles_leaves (hbail : options.bail = false) (files : List String)
    (hdirs : (t.makeDirs base out).result = .ok ()) :
    let t' := ((runFiles options out files).perform base t).tree
    ∃ (r : Registry) (ws : List (Module × String)), r.Holds (documents t base files) ∧
      (ws.map Prod.fst).Sublist r.modules ∧
      (∀ w ∈ ws, (w.1.prepare options.source).value = .ready (w.1.name ++ ".ts") w.2) ∧
      Written base out ws (t.makeDirs base out).tree t' ∧
      ∀ m ∈ r.modules, ∀ text,
        (m.prepare options.source).value = .ready (m.name ++ ".ts") text →
          m.isWritten options.source base out (t.makeDirs base out).tree = true →
            t'.read base (outputFile out m.name) = .ok text := by
  intro t'
  obtain ⟨r, es, hholds, ⟨ws, rfl, hsub, hready⟩, heffects⟩ :=
    runFiles_does hbail out files t
  obtain ⟨r', errors, t'', log, hholds', hperform, -, hread⟩ := runFiles_perform hbail files hdirs
  obtain rfl : t' = t'' := congrArg Performed.tree hperform
  rw [hholds'.modules_eq hholds] at hread
  exact ⟨r, ws, hholds, hsub, hready,
    written_of_effects (out_ne_empty hdirs) hsub hready heffects, hread⟩

end

/-- A run that is not ended by its failures, done again over the tree that it leaves. -/
theorem rerun_plain {t : FileTree} {base : Location} {cwd : String} {options : Options}
    {s : Summary} (hbail : options.bail = false) (hwell : t.WellFormed)
    (hbase : t.isDirectory base = true)
    (hextension : Path.dropLeadingDots options.extension ≠ "ts") {file : String}
    {files : List String}
    (hscan : t.scan base (Path.join cwd options.path) options.extension = .ok (file :: files))
    (hrun : ((runJob cwd options).perform base t).value = .ok s) :
    let again := (runJob cwd options).perform base ((runJob cwd options).perform base t).tree
    again.value = .ok s ∧ again.tree = ((runJob cwd options).perform base t).tree := by
  intro again
  obtain ⟨hdirs, r, hholds, hwritten, hskipped, herrors⟩ :=
    summary_counts hscan (List.cons_ne_nil _ _) hrun
  have hout : Path.join cwd options.out ≠ "" := out_ne_empty hdirs
  have htree : ((runJob cwd options).perform base t).tree =
      ((runFiles options (Path.join cwd options.out) (file :: files)).perform base t).tree := by
    rw [runJob_perform hscan]
  obtain ⟨r', ws, hholds', hsub, hready, hleft, hread⟩ :=
    runFiles_leaves hbail (file :: files) hdirs
  rw [← htree] at hleft hread
  revert again
  generalize ((runJob cwd options).perform base t).tree = t' at hleft hread ⊢
  intro again
  -- the same files are found, and the same is read from them
  have hspares := spares_of_written hextension hholds' hsub hready hleft
  have horigin : t.isDirectory (FileTree.origin base (Path.join cwd options.path)) = true := by
    rw [FileTree.origin]
    split
    · rfl
    · exact hbase
  have hscan' := hspares.scan_eq hwell horigin hscan
  have hsame := hspares.read_scanned hwell horigin (Path.join_ne_empty _ _) hscan
  have hdocuments := documents_congr hsame
  -- the output directory is there
  obtain ⟨hallowed, loc, hwalk, hdirectory⟩ := FileTree.reaches_makeDirs hdirs
  have hdirs' : t'.makeDirs base (Path.join cwd options.out) = ⟨.ok (), t'⟩ :=
    FileTree.makeDirs_standing hallowed (FileTree.walk_kept hleft.keepsDirectories hwalk)
      (hleft.keepsDirectories loc hdirectory)
  -- every module comes to the same
  obtain ⟨s', hs'⟩ := exists_summary hbail hscan' (congrArg FileTree.Change.result hdirs')
  obtain ⟨-, r'', hholds'', hwritten', hskipped', herrors'⟩ :=
    summary_counts hscan' (List.cons_ne_nil _ _) hs'
  rw [hdocuments] at hholds''
  rw [hdirs', hholds''.modules_eq hholds] at hwritten' herrors'
  rw [hholds''.modules_eq hholds] at hskipped'
  rw [writtenNames_kept hout hleft.kept] at hwritten'
  rw [unloadable_congr hsame, failing_kept hout hleft.kept] at herrors'
  have hsummary : s' = s := by
    cases s
    cases s'
    simp_all
  refine ⟨hs'.trans (by rw [hsummary]), ?_⟩
  have hagain : again.tree =
      ((runFiles options (Path.join cwd options.out) (file :: files)).perform base t').tree := by
    simp only [again, runJob_perform hscan']
  rw [hagain]
  refine runFiles_tree_eq hbail hout hdirs' (hdocuments ▸ hholds') fun m hm text hp hw => ?_
  exact hread m hm text hp ((hleft.kept.isWritten_eq hout m).symm.trans hw)

/-- A run without errors is the same if a failure would end it. -/
theorem perform_of_plain_ok {t : FileTree} {base : Location} {cwd : String} {options : Options}
    {s : Summary}
    (h : ((runJob cwd { options with bail := false }).perform base t).value = .ok s)
    (hcount : options.bail = true → s.errors = 0) :
    (runJob cwd options).perform base t =
      (runJob cwd { options with bail := false }).perform base t := by
  rw [runJob_eq]
  split
  · rename_i hbail
    exact (tallies_runJob { options with bail := false } cwd).cut_of_none h (hcount hbail)
  · rfl

/-- Running again changes nothing. Whatever directories a run reads from and writes to, if it comes
to a summary, then a second run over the tree that it leaves comes to the same summary and leaves
the same tree. -/
theorem rerun_changes_nothing (t : FileTree) (base : Location) (cwd : String) (options : Options)
    (s : Summary) (hwell : t.WellFormed) (hbase : t.isDirectory base = true)
    (hextension : Path.dropLeadingDots options.extension ≠ "ts")
    (hrun : ((runJob cwd options).perform base t).value = .ok s) :
    let first := (runJob cwd options).perform base t
    let second := (runJob cwd options).perform base first.tree
    second.value = .ok s ∧ second.tree = first.tree := by
  intro first second
  have hnothing : (runJob cwd options).effects base t = [] →
      second.value = .ok s ∧ second.tree = first.tree := by
    intro hnone
    have htree : first.tree = t := by
      rw [Job.perform_tree, hnone]
      rfl
    have hsecond : second = first := by simp only [second, htree, first]
    rw [hsecond]
    exact ⟨hrun, rfl⟩
  cases hscan : t.scan base (Path.join cwd options.path) options.extension with
  | error e => exact hnothing (effects_runJob_of_nothing (Or.inl ⟨e, hscan⟩))
  | ok files =>
    cases files with
    | nil => exact hnothing (effects_runJob_of_nothing (Or.inr hscan))
    | cons file files =>
      obtain ⟨hfirst, hcount⟩ := perform_plain_of_ok hrun
      rw [hfirst] at hrun
      have hgoes : ({ options with bail := false } : Options).bail = false := rfl
      obtain ⟨hvalue, htree⟩ := rerun_plain hgoes hwell hbase hextension hscan hrun
      have hsecond := perform_of_plain_ok hvalue hcount
      rw [← hfirst] at hvalue htree hsecond
      exact ⟨(congrArg Performed.value hsecond).trans hvalue,
        (congrArg Performed.tree hsecond).trans htree⟩

theorem wellFormed_leafTree : leafTree.WellFormed := by
  have hitems : leafTree.items =
      [(["in"], .directory), (["in", "m.xml"], .file (.text leafDocument.text))] := rfl
  have hin : Path.IsFileName "in" ∧ Path.isTooLong "in" = false :=
    ⟨⟨by decide, by decide, by decide, by decide⟩, rfl⟩
  have hm : Path.IsFileName "m.xml" ∧ Path.isTooLong "m.xml" = false :=
    ⟨⟨by decide, by decide, by decide, by decide⟩, rfl⟩
  constructor
  · rw [hitems, List.forall_mem_cons, List.forall_mem_singleton]
    exact ⟨rfl, rfl⟩
  · rw [hitems]
    simp only [List.forall_mem_cons]
    exact ⟨⟨hin, by simp⟩, ⟨hin, hm, by simp⟩, by simp⟩

theorem rerun_changes_nothing_leafTree :
    ∃ s, ((runJob "/" leafOptions).perform [] leafTree).value = .ok s ∧
      ((runJob "/" leafOptions).perform []
        ((runJob "/" leafOptions).perform [] leafTree).tree).value = .ok s := by
  have hscan : leafTree.scan [] (Path.join "/" leafOptions.path) leafOptions.extension =
    .ok ["/in/m.xml"] := rfl
  obtain ⟨s, hrun⟩ := exists_summary rfl hscan rfl
  have hagain :=
    rerun_changes_nothing leafTree [] "/" leafOptions s wellFormed_leafTree rfl (by decide) hrun
  exact ⟨s, hrun, hagain.1⟩

end YangScript
