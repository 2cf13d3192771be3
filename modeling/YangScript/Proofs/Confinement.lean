import YangScript.Proofs.FirstFailure
import YangScript.Proofs.NewDirectories

/-!
# A run keeps to its output directory

Whatever the documents, their names and the options are, and whatever a run comes to, the only
locations that change are those of new directories on the way to the output directory and those of
the files that lie directly in it and are named after the newest modules. A module that fails
changes nothing, and neither does a run that has nothing to load or ends while it loads.
-/

set_option autoImplicit false

namespace YangScript

/-- The run makes a directory where nothing was, on the way to the directory at `out`. -/
def IsNewDirectory (base : Location) (out : String) (t t' : FileTree) (loc : Location) : Prop :=
  t.find? loc = none ∧ t'.find? loc = some .directory ∧
    FileTree.OnTheWay t' (FileTree.origin base out) (Path.names out) loc

/-- The run writes the file of a module, which is no submodule and the newest of its name, directly
into the directory at `out`. -/
def IsOutputFile (options : SourceOptions) (docs : List (String × Module)) (base : Location)
    (out : String) (t t' : FileTree) (loc : Location) : Prop :=
  ∃ around source m text,
    t'.walk (FileTree.origin base out) (Path.names out ++ ["."]) = .ok around ∧
    loc = around ++ [m.name ++ ".ts"] ∧ IsModuleFileName m.name ∧
    Newest docs source m ∧ m.isSubmodule = false ∧
    (m.prepare options).value = .ready (m.name ++ ".ts") text ∧
    t.find? loc ≠ some .directory ∧ t'.find? loc = some (.file (.text text))

section

variable {base : Location} {options : SourceOptions} {out : String} {t t' : FileTree}

/-- What is written into the output directory after it is made. -/
theorem find?_of_written {docs : List (String × Module)} {r : Registry}
    {ws : List (Module × String)} (hholds : r.Holds docs)
    (hsub : (ws.map Prod.fst).Sublist r.modules)
    (hready : ∀ w ∈ ws, (w.1.prepare options).value = .ready (w.1.name ++ ".ts") w.2)
    (h : Written base out ws (t.makeDirs base out).tree t') (loc : Location) :
    t'.find? loc = t.find? loc ∨ IsNewDirectory base out t t' loc ∨
      IsOutputFile options docs base out t t' loc := by
  have hmade := FileTree.madeAlong_makeDirs t base out
  have hkeeps := h.keepsDirectories
  rcases h.others loc with hsame | ⟨w, hw, htarget, hfound⟩
  · rw [hsame]
    refine (hmade loc).imp id fun ⟨hnone, hnew, hway⟩ => Or.inl ⟨hnone, ?_, hway.kept hkeeps⟩
    rw [hsame, hnew]
  · obtain ⟨around, hwalk, hplace⟩ := htarget.below
    have hw' := hready w hw
    have hmem : w.1 ∈ r.modules := hsub.subset (List.mem_map_of_mem hw)
    obtain ⟨source, hnewest⟩ := (hholds.mem_modules_iff w.1).mp hmem
    have hname : IsModuleFileName w.1.name :=
      ((fileName?_iff _ _).mp (Module.prepare_ready hw').1).1
    have hfull : w.1.isSubmodule = false := not_submodule_of_prepare hw' (by simp)
    refine Or.inr (Or.inr ⟨around, source, w.1, w.2, FileTree.walk_kept hkeeps hwalk, hplace, hname,
      hnewest, hfull, hw', ?_, hfound⟩)
    intro hdirectory
    have hkept := hmade.keeps loc ((FileTree.isDirectory_iff t loc).mpr hdirectory)
    rw [htarget.vacant] at hkept
    exact absurd hkept (by decide)

end

section

variable {base : Location} {options : Options} {out : String} {m : Module}

/-- A module fails if its keys, its name or its root does. -/
theorem exists_failure_of_prepare {options : SourceOptions}
    (h : (∃ f, m.validate = .error f) ∨ fileName? m.name = none ∨
      ∃ e, (m.source options).value = .error e) :
    ∃ f, (m.prepare options).value = .failure f := by
  rw [Module.prepare_eq]
  cases hvalid : m.validate with
  | error f => exact ⟨_, rfl⟩
  | ok u =>
    cases hfile : fileName? m.name with
    | none => exact ⟨_, rfl⟩
    | some file =>
      rcases h with ⟨f, hf⟩ | hnone | ⟨e, he⟩
      · exact absurd (hvalid.symm.trans hf) (by simp)
      · exact absurd (hfile.symm.trans hnone) (by simp)
      · exact ⟨.root m.name e, by simp [he, Prepared.ofSource]⟩

/-- What is done after a module that fails is done on the same tree. -/
theorem tree_moduleJob_of_failure {f : Failure}
    (h : (m.prepare options.source).value = .failure f) (s : Summary)
    (next : Summary → Stage Summary) (t : FileTree) :
    ((moduleJob options out m s next).perform base t).tree =
      if options.bail then t
      else ((next { s with errors := s.errors + 1 }).perform base t).tree := by
  rw [Job.perform_tree, moduleJob, Job.effects_sayAll, h]
  dsimp only
  rw [effects_failWith]
  split
  · rfl
  · rw [Job.perform_tree]

/-- Loading ends at the first file that does not load, if failures end the run. -/
theorem loadAll_of_unloadable {t : FileTree} {files : List String} {file : String}
    (hfile : file ∈ files) {e : FileError} (he : Module.ofReading (t.read base file) = .error e)
    (s : Loaded) : ∃ f, ((loadAll true files s).perform base t).value = .error f := by
  induction files generalizing s with
  | nil => exact absurd hfile (by simp)
  | cons first files ih =>
    rw [loadAll, Job.perform, Job.perform]
    cases hfirst : Module.ofReading (t.read base first) with
    | error e' => exact ⟨_, rfl⟩
    | ok m =>
      have hrest : file ∈ files := by
        rcases List.mem_cons.mp hfile with rfl | hrest
        · exact absurd (hfirst.symm.trans he) (by simp)
        · exact hrest
      cases haccepts : s.registry.accepts m with
      | true =>
        simp only [haccepts, if_true]
        exact ih hrest _
      | false =>
        simp only [haccepts, Bool.false_eq_true, if_false]
        exact ih hrest s

/-- A run that ends while it loads does nothing to the disk. -/
theorem effects_runFiles_of_unloadable {t : FileTree} {files : List String} {file : String}
    (hbail : options.bail = true) (hfile : file ∈ files) {e : FileError}
    (he : Module.ofReading (t.read base file) = .error e) :
    (runFiles options out files).effects base t = [] := by
  obtain ⟨f, hf⟩ := loadAll_of_unloadable hfile he ⟨Registry.empty, 0⟩
  rw [runFiles, hbail, andThen, Job.effects_bind, effects_loadAll, hf]
  rfl

end

theorem runJob_effects_of_unloadable {t : FileTree} {base : Location} {cwd : String}
    {options : Options} {files : List String} {file : String} {e : FileError}
    (hbail : options.bail = true)
    (hscan : t.scan base (Path.join cwd options.path) options.extension = .ok files)
    (hfile : file ∈ files) (he : Module.ofReading (t.read base file) = .error e) :
    (runJob cwd options).effects base t = [] := by
  rw [runJob, Job.effects, Job.effects, hscan]
  cases files with
  | nil => exact absurd hfile (by simp)
  | cons first files => exact effects_runFiles_of_unloadable hbail hfile he

/-- A run changes nothing but the way to its output directory and the files of the newest modules
in it. A module that fails leaves the tree as it is to what is done next, if the run goes on. Where
there is nothing to load, or loading ends the run, nothing changes at all. -/
theorem run_confined_to_output (t : FileTree) (base : Location) (cwd : String)
    (options : Options) :
    let out := Path.join cwd options.out
    let scanned := t.scan base (Path.join cwd options.path) options.extension
    let p := (runJob cwd options).perform base t
    (∀ loc, p.tree.find? loc = t.find? loc ∨ IsNewDirectory base out t p.tree loc ∨
      ∃ files, scanned = .ok files ∧
        IsOutputFile options.source (documents t base files) base out t p.tree loc) ∧
    (∀ m s next t', ((∃ f, m.validate = .error f) ∨ fileName? m.name = none ∨
        ∃ e, (m.source options.source).value = .error e) →
      ((moduleJob options out m s next).perform base t').tree =
        if options.bail then t'
        else ((next { s with errors := s.errors + 1 }).perform base t').tree) ∧
    ((∃ e, scanned = .error e) ∨ scanned = .ok [] ∨
        (options.bail = true ∧ ∃ files, scanned = .ok files ∧
          ∃ file ∈ files, ∃ e, Module.ofReading (t.read base file) = .error e) →
      p.tree = t) := by
  intro out scanned p
  refine ⟨?changes, ?failures, ?nothing⟩
  case changes =>
    intro loc
    rcases runJob_tree t base cwd options with
      ⟨-, hsame⟩ | ⟨files, r, ws, hscan, hholds, hsub, hready, -, hwritten⟩
    · exact Or.inl (by rw [hsame])
    · exact (find?_of_written hholds hsub hready hwritten loc).imp id
        (Or.imp id fun houtput => ⟨files, hscan, houtput⟩)
  case failures =>
    intro m s next t' hfails
    obtain ⟨f, hf⟩ := exists_failure_of_prepare hfails
    exact tree_moduleJob_of_failure hf s next t'
  case nothing =>
    intro hnothing
    have heffects : (runJob cwd options).effects base t = [] := by
      rcases hnothing with ⟨e, he⟩ | hnil | ⟨hbail, files, hscan, file, hfile, e, he⟩
      · exact effects_runJob_of_nothing (Or.inl ⟨e, he⟩)
      · exact effects_runJob_of_nothing (Or.inr hnil)
      · exact runJob_effects_of_unloadable hbail hscan hfile he
    rw [Job.perform_tree, heffects]
    rfl

/-- A file that does not load, a module whose name leads out of the directory, and a directory that
is not there. -/
theorem run_confined_to_output_brokenTree :
    ((runJob "/" { leafOptions with bail := true }).perform [] brokenTree).tree = brokenTree ∧
      ((moduleJob leafOptions "/out" (Module.ofName "../m") .none (fun s => .done (.ok s))).perform
        [] brokenTree).tree = brokenTree ∧
      ((runJob "/" leafOptions).perform [] FileTree.empty).tree = FileTree.empty := by
  obtain ⟨-, -, hbroken⟩ :=
    run_confined_to_output brokenTree [] "/" { leafOptions with bail := true }
  obtain ⟨-, hfails, -⟩ := run_confined_to_output brokenTree [] "/" leafOptions
  obtain ⟨-, -, hempty⟩ := run_confined_to_output FileTree.empty [] "/" leafOptions
  refine ⟨hbroken ?_, hfails (Module.ofName "../m") .none _ brokenTree ?_, hempty ?_⟩
  · refine Or.inr (Or.inr ⟨rfl, ["/in/a.xml", "/in/m.xml"], rfl, "/in/a.xml", ?_, ?_⟩)
    · decide
    · exact ⟨.io .notText, rfl⟩
  · exact Or.inr (Or.inl (by decide))
  · exact Or.inl ⟨_, rfl⟩

end YangScript
