import YangScript.Output.Generate
import YangScript.Proofs.Expression
import YangScript.Proofs.RunStages

/-!
# A run does what the library does with the newest documents

For every name, the newest document among the scanned files alone decides what a run makes of the
name. It is written if the library makes a text of it and there is a place for its file, and
skipped if the library makes none.
-/

set_option autoImplicit false

namespace YangScript

/-- The names of modules under which files may be written. -/
def IsModuleFileName (name : String) : Prop :=
  name ≠ "" ∧ '/' ∉ name.toList ∧ '\x5c' ∉ name.toList

/-- What the library makes of the newest document of a name, which is no submodule. -/
def Generates (docs : List (String × Module)) (options : SourceOptions) (name : String)
    (made : Option String) : Prop :=
  ∃ source m, Newest docs source m ∧ m.name = name ∧ m.isSubmodule = false ∧
    (generateDocument options source).value = .ok made

/-- A name has one newest document, of which the library makes one thing. -/
theorem Generates.unique {docs : List (String × Module)} {options : SourceOptions} {name : String}
    {made made' : Option String} (h : Generates docs options name made)
    (h' : Generates docs options name made') : made = made' := by
  obtain ⟨source, m, hnewest, hname, -, hmade⟩ := h
  obtain ⟨source', m', hnewest', hname', -, hmade'⟩ := h'
  obtain ⟨rfl, rfl⟩ := hnewest.unique hnewest' (hname.trans hname'.symm)
  exact Except.ok.inj (hmade.symm.trans hmade')

section

variable {options : SourceOptions} {source : String} {m : Module}

theorem generateDocument_eq (h : Module.ofDocument source = .ok m) :
    (generateDocument options source).value =
      match m.validate with
      | .error f => .error (.key f)
      | .ok () => (m.source options).value.mapError .root := by
  cases hvalid : m.validate with
  | error f => simp [generateDocument, h, hvalid]
  | ok u => simp [generateDocument, h, hvalid]

/-- A run and the library come to the same, up to the name of the file. -/
theorem prepare_made_iff (h : Module.ofDocument source = .ok m) (made : Option String) :
    (m.prepare options).value = Prepared.ofSource m.name (m.name ++ ".ts") (.ok made) ↔
      IsModuleFileName m.name ∧ (generateDocument options source).value = .ok made := by
  have hname : IsModuleFileName m.name ↔ fileName? m.name = some (m.name ++ ".ts") := by
    rw [fileName?_iff, IsModuleFileName]
    simp
  rw [generateDocument_eq h, m.prepare_eq, hname]
  cases m.validate with
  | error f => cases made <;> simp [Prepared.ofSource]
  | ok u =>
    cases hfile : fileName? m.name with
    | none => cases made <;> simp [Prepared.ofSource]
    | some name =>
      rw [fileName?_eq hfile]
      cases (m.source options).value with
      | error e => cases made <;> simp [Prepared.ofSource]
      | ok made' => cases made <;> cases made' <;> simp [Prepared.ofSource]

end

/-- A submodule comes to a failure, so what comes to anything else is none. -/
theorem not_submodule_of_prepare {options : SourceOptions} {m : Module} {p : Prepared}
    (h : (m.prepare options).value = p) (hp : ∀ f, p ≠ .failure f) : m.isSubmodule = false := by
  cases hsub : m.isSubmodule with
  | false => rfl
  | true =>
    obtain ⟨f, hf⟩ := m.prepare_submodule options hsub
    exact absurd (h.symm.trans hf) (hp f)

theorem perform_andThen {σ τ : Type} {base : Location} {stage : Stage σ} {next : σ → Stage τ}
    {t t' : FileTree} {a : σ} {log : List RunNotice}
    (h : stage.perform base t = ⟨.ok a, t', log⟩) :
    (andThen stage next).perform base t =
      (let p := (next a).perform base t'
       ⟨p.value, p.tree, log ++ p.log⟩) := by
  rw [andThen, Job.perform_bind, h]

theorem out_ne_empty {t : FileTree} {base : Location} {out : String}
    (h : (t.makeDirs base out).result = .ok ()) : out ≠ "" := by
  rintro rfl
  have hempty : Path.refusal? "" = some .notFound := rfl
  rw [FileTree.makeDirs, hempty] at h
  exact absurd h (by simp)

/-- A run that is not ended by a failure has made the output directory. -/
theorem makeDirs_of_runFiles {options : Options} (hbail : options.bail = false) {out : String}
    {files : List String} {base : Location} {t : FileTree} {s : Summary}
    (h : ((runFiles options out files).perform base t).value = .ok s) :
    (t.makeDirs base out).result = .ok () := by
  obtain ⟨errors, log, hload, -⟩ := loadAll_perform base files ⟨Registry.empty, 0⟩ t
  rw [runFiles, hbail, perform_andThen hload] at h
  simp only [Job.perform] at h
  cases hdirs : (t.makeDirs base out).result with
  | ok u => rfl
  | error e =>
    rw [hdirs] at h
    exact absurd h (by simp [Job.perform])

/-- A run over some files for which the output directory can be made, from the registry on that
loading leaves. -/
theorem runFiles_perform {options : Options} (hbail : options.bail = false) {out : String}
    (files : List String) {base : Location} {t : FileTree}
    (hdirs : (t.makeDirs base out).result = .ok ()) :
    ∃ (r : Registry) (errors : Nat) (t' : FileTree) (log : List RunNotice),
      r.Holds (documents t base files) ∧
      (runFiles options out files).perform base t =
        ⟨.ok
          { written := (writtenNames options.source base out (t.makeDirs base out).tree
              r.modules).map (outputFile out)
            skipped := (skippedNames options.source r.modules).length
            errors }, t', log⟩ ∧
      log.filterMap RunNotice.skipped? = skippedNames options.source r.modules ∧
      ∀ m ∈ r.modules, ∀ text,
        (m.prepare options.source).value = .ready (m.name ++ ".ts") text →
          m.isWritten options.source base out (t.makeDirs base out).tree = true →
            t'.read base (outputFile out m.name) = .ok text := by
  obtain ⟨errors, log, hload, hlog⟩ := loadAll_perform base files ⟨Registry.empty, 0⟩ t
  have hholds := Registry.holds_empty.insertAll (documents t base files)
  generalize Registry.empty.insertAll ((documents t base files).map Prod.snd) = r at hload hholds
  obtain ⟨errors', log', t', hwrite, hlog', -, hread⟩ :=
    writeAll_perform base options hbail (out_ne_empty hdirs) r.modules r.sorted.nodup
      ⟨[], 0, errors⟩ (t.makeDirs base out).tree
  simp only [List.nil_append, Nat.zero_add] at hwrite
  refine ⟨r, errors', t', log ++ (log' ++ [.completed errors']), hholds, ?_, ?_, hread⟩
  · rw [runFiles, hbail, perform_andThen hload]
    simp only [Job.perform, hdirs]
    rw [perform_andThen hwrite]
    simp only [Job.perform]
  · simp [hlog, hlog', RunNotice.skipped?]

theorem mem_names_iff {ms : List Module} {keep : Module → Bool} {n : String} :
    n ∈ (ms.filter keep).map Module.name ↔ ∃ m ∈ ms, m.name = n ∧ keep m = true := by
  simp only [List.mem_map, List.mem_filter]
  constructor
  · rintro ⟨m, ⟨hm, hkeep⟩, hname⟩
    exact ⟨m, hm, hname, hkeep⟩
  · rintro ⟨m, hm, hname, hkeep⟩
    exact ⟨m, ⟨hm, hkeep⟩, hname⟩

/-- The names of some of the modules of a registry come in increasing order. -/
theorem Registry.pairwise_names (r : Registry) (keep : Module → Bool) :
    ((r.modules.filter keep).map Module.name).Pairwise (· < ·) :=
  List.pairwise_map.mpr (r.sorted.sublist List.filter_sublist)

section

variable {options : SourceOptions} {docs : List (String × Module)} {r : Registry}
  (hholds : r.Holds docs) (hdocs : ∀ d ∈ docs, Module.ofDocument d.1 = .ok d.2)

include hholds hdocs

/-- The library makes something of the newest document of a name if the module held under the name
comes to it. -/
theorem exists_made_iff (name : String) (made : Option String) :
    (∃ m ∈ r.modules, m.name = name ∧
        (m.prepare options).value = Prepared.ofSource name (name ++ ".ts") (.ok made)) ↔
      IsModuleFileName name ∧ Generates docs options name made := by
  constructor
  · rintro ⟨m, hm, rfl, hprepare⟩
    obtain ⟨source, hnewest⟩ := (hholds.mem_modules_iff m).mp hm
    have hsource := hdocs _ hnewest.mem
    obtain ⟨hname, hmade⟩ := (prepare_made_iff hsource made).mp hprepare
    have hfull : m.isSubmodule = false :=
      not_submodule_of_prepare hprepare (by cases made <;> simp [Prepared.ofSource])
    exact ⟨hname, source, m, hnewest, rfl, hfull, hmade⟩
  · rintro ⟨hname, source, m, hnewest, rfl, -, hmade⟩
    have hsource := hdocs _ hnewest.mem
    exact ⟨m, (hholds.mem_modules_iff m).mpr ⟨source, hnewest⟩, rfl,
      (prepare_made_iff hsource made).mpr ⟨hname, hmade⟩⟩

/-- A name is written if the library makes a text of its newest document that can be written. -/
theorem mem_writtenNames_iff (base : Location) (out : String) (t : FileTree) (n : String) :
    n ∈ writtenNames options base out t r.modules ↔
      ∃ text, IsModuleFileName n ∧ Generates docs options n (some text) ∧
        (t.write base (outputFile out n) text).result = .ok () := by
  rw [writtenNames, mem_names_iff]
  constructor
  · rintro ⟨m, hm, rfl, hw⟩
    obtain ⟨text, hready, hplace⟩ := Module.isWritten_iff.mp hw
    obtain ⟨hname, hmade⟩ :=
      (exists_made_iff hholds hdocs m.name (some text)).mp ⟨m, hm, rfl, hready⟩
    exact ⟨text, hname, hmade, hplace⟩
  · rintro ⟨text, hname, hmade, hplace⟩
    obtain ⟨m, hm, rfl, hready⟩ :=
      (exists_made_iff hholds hdocs n (some text)).mpr ⟨hname, hmade⟩
    exact ⟨m, hm, rfl, Module.isWritten_iff.mpr ⟨text, hready, hplace⟩⟩

theorem mem_skippedNames_iff (n : String) :
    n ∈ skippedNames options r.modules ↔
      IsModuleFileName n ∧ Generates docs options n none := by
  rw [skippedNames, mem_names_iff, ← exists_made_iff hholds hdocs]
  simp only [Module.isSkipped_iff, Prepared.ofSource]

/-- What the library makes of the newest document of a written name is what its module comes to. -/
theorem exists_written_ready {base : Location} {out : String} {t : FileTree} {n text : String}
    (hn : n ∈ writtenNames options base out t r.modules)
    (hmade : Generates docs options n (some text)) :
    ∃ m ∈ r.modules, m.name = n ∧ (m.prepare options).value = .ready (m.name ++ ".ts") text ∧
      m.isWritten options base out t = true := by
  obtain ⟨m, hm, rfl, hw⟩ := mem_names_iff.mp hn
  obtain ⟨text', hready, -⟩ := Module.isWritten_iff.mp hw
  have hmade' :=
    ((exists_made_iff hholds hdocs m.name (some text')).mp ⟨m, hm, rfl, hready⟩).2
  rw [Option.some.inj (hmade.unique hmade')]
  exact ⟨m, hm, rfl, hready, hw⟩

end

theorem not_generates_nil (options : SourceOptions) (n : String) (made : Option String) :
    ¬ Generates [] options n made := by
  rintro ⟨source, m, hnewest, -⟩
  exact absurd hnewest.mem (by simp)

/-- The scan alone decides how a run goes on. -/
theorem runJob_perform {t : FileTree} {base : Location} {cwd : String} {options : Options}
    {file : String} {files : List String}
    (hscan : t.scan base (Path.join cwd options.path) options.extension = .ok (file :: files)) :
    (runJob cwd options).perform base t =
      (let p := (runFiles options (Path.join cwd options.out) (file :: files)).perform base t
       ⟨p.value, p.tree, .scanning (Path.join cwd options.path) :: p.log⟩) := by
  rw [runJob, Job.perform, Job.perform, hscan]

/-- Without an end by failure, only the lack of an output directory keeps a run from a summary. -/
theorem exists_summary {t : FileTree} {base : Location} {cwd : String} {options : Options}
    {file : String} {files : List String} (hbail : options.bail = false)
    (hscan : t.scan base (Path.join cwd options.path) options.extension = .ok (file :: files))
    (hdirs : (t.makeDirs base (Path.join cwd options.out)).result = .ok ()) :
    ∃ s, ((runJob cwd options).perform base t).value = .ok s := by
  obtain ⟨r, errors, t', log, -, hfiles, -⟩ := runFiles_perform hbail (file :: files) hdirs
  rw [runJob_perform hscan, hfiles]
  exact ⟨_, rfl⟩

/-- A run that is not ended by a failure agrees with the library. The files written are those of
the names whose newest document the library makes a text of, as far as there is a place for them
once the output directory is made. Each holds that text in the end. The modules skipped are those
of the names whose newest document the library makes no text of. -/
theorem run_agrees_with_library (t : FileTree) (base : Location) (cwd : String)
    (options : Options) (files : List String) (s : Summary) (hbail : options.bail = false)
    (hscan : t.scan base (Path.join cwd options.path) options.extension = .ok files)
    (hrun : ((runJob cwd options).perform base t).value = .ok s) :
    let out := Path.join cwd options.out
    let docs := documents t base files
    let p := (runJob cwd options).perform base t
    (∃ names : List String, names.Pairwise (· < ·) ∧ s.written = names.map (outputFile out) ∧
      (∀ n, n ∈ names ↔ ∃ text, IsModuleFileName n ∧
        Generates docs options.source n (some text) ∧
        ((t.makeDirs base out).tree.write base (outputFile out n) text).result = .ok ()) ∧
      ∀ n ∈ names, ∀ text, Generates docs options.source n (some text) →
        p.tree.read base (outputFile out n) = .ok text) ∧
    ∃ names : List String, names.Pairwise (· < ·) ∧ s.skipped = names.length ∧
      p.log.filterMap RunNotice.skipped? = names ∧
      ∀ n, n ∈ names ↔ IsModuleFileName n ∧ Generates docs options.source n none := by
  intro out docs p
  cases files with
  | nil =>
    -- nothing is found, so there is no document and nothing is made
    have hp : p = ⟨.ok Summary.none, t, [.scanning (Path.join cwd options.path),
        .noFiles options.extension (Path.join cwd options.path)]⟩ := by
      simp only [p, runJob, Job.perform, hscan]
    have hs : s = Summary.none := by
      rw [show (runJob cwd options).perform base t = p from rfl, hp] at hrun
      exact (Except.ok.inj hrun).symm
    have hnone := not_generates_nil options.source
    rw [hs, hp]
    constructor
    · refine ⟨[], List.Pairwise.nil, rfl, ?_, by simp⟩
      intro n
      simp [docs, documents, hnone]
    · refine ⟨[], List.Pairwise.nil, rfl, rfl, ?_⟩
      intro n
      simp [docs, documents, hnone]
  | cons file files =>
    have hjob := runJob_perform hscan
    have hdirs : (t.makeDirs base out).result = .ok () := by
      rw [hjob] at hrun
      exact makeDirs_of_runFiles hbail hrun
    obtain ⟨r, errors, t', log, hholds, hfiles, hlog, hread⟩ :=
      runFiles_perform hbail (file :: files) hdirs
    rw [hfiles] at hjob
    have hs := Except.ok.inj ((congrArg Performed.value hjob).symm.trans hrun)
    have hp : p = ⟨_, t', .scanning (Path.join cwd options.path) :: log⟩ := hjob
    have hdocs : ∀ d ∈ docs, Module.ofDocument d.1 = .ok d.2 :=
      fun d hd => ofDocument_of_mem_documents hd
    rw [← hs, hp]
    constructor
    · refine ⟨writtenNames options.source base out (t.makeDirs base out).tree r.modules,
        r.pairwise_names _, rfl, mem_writtenNames_iff hholds hdocs base out _, ?_⟩
      intro n hn text hmade
      obtain ⟨m, hm, rfl, hready, hw⟩ := exists_written_ready hholds hdocs hn hmade
      exact hread m hm text hready hw
    · exact ⟨skippedNames options.source r.modules, r.pairwise_names _, rfl, hlog,
        mem_skippedNames_iff hholds hdocs⟩

/-- A directory with the document of `leafModule` in its only file. -/
def leafTree : FileTree :=
  FileTree.empty.place ["in", "m.xml"] (.file (.text leafDocument.text))

def leafOptions : Options where
  path := "in"
  out := "out"
  extension := "xml"
  bail := false
  source := .default

theorem documents_leafTree :
    documents leafTree [] ["/in/m.xml"] = [(leafDocument.text, leafModule)] := by
  have hread : leafTree.read [] "/in/m.xml" = .ok leafDocument.text := rfl
  have hload := Xml.Document.ofDocument_of_writes leafDocument_writes leafModule_expressible
  simp [documents, hread, loadable?, hload]

theorem generates_leafTree :
    ∃ text, Generates (documents leafTree [] ["/in/m.xml"]) leafOptions.source "m" (some text) := by
  have hload := Xml.Document.ofDocument_of_writes leafDocument_writes leafModule_expressible
  obtain ⟨text, hsource⟩ :
      ∃ text, (leafModule.source leafOptions.source).value = .ok (some text) := ⟨_, rfl⟩
  have hvalid : leafModule.validate = .ok () := rfl
  refine ⟨text, leafDocument.text, leafModule, ⟨[], [], ?_, by simp, by simp⟩, rfl, rfl, ?_⟩
  · rw [documents_leafTree]
    rfl
  · rw [generateDocument_eq hload, hvalid, hsource]
    rfl

theorem run_agrees_with_library_leafTree :
    ∃ s text, ((runJob "/" leafOptions).perform [] leafTree).value = .ok s ∧
      "/out/m.ts" ∈ s.written ∧
      Generates (documents leafTree [] ["/in/m.xml"]) leafOptions.source "m" (some text) ∧
      ((runJob "/" leafOptions).perform [] leafTree).tree.read [] "/out/m.ts" = .ok text := by
  have hscan : leafTree.scan [] (Path.join "/" leafOptions.path) leafOptions.extension =
    .ok ["/in/m.xml"] := rfl
  obtain ⟨s, hrun⟩ := exists_summary rfl hscan rfl
  obtain ⟨text, hmade⟩ := generates_leafTree
  obtain ⟨⟨names, -, hwritten, hnames, hread⟩, -⟩ :=
    run_agrees_with_library leafTree [] "/" leafOptions ["/in/m.xml"] s rfl hscan hrun
  have hm : "m" ∈ names := (hnames "m").mpr ⟨text, by simp [IsModuleFileName], hmade, rfl⟩
  refine ⟨s, text, hrun, ?_, hmade, hread "m" hm text hmade⟩
  rw [hwritten]
  exact List.mem_map_of_mem hm

end YangScript
