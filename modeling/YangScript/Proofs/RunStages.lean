import YangScript.Command.Run
import YangScript.Proofs.Newest
import YangScript.Proofs.OutputDirectory

/-!
# What the two stages of a run come to

Loading reads the files in order, changes nothing on the disk, and leaves a registry of the
modules that load. Writing takes the modules in order; each of them is written, skipped or
counted as a failure, by what it comes to and by whether there is a place for its file. Both are
stated for runs that are not ended by a failure.
-/

set_option autoImplicit false

namespace YangScript

/-- The text that reading a file gave, if it is a module, with that module. -/
def loadable? (reading : Except IoError String) : Option (String × Module) :=
  match reading with
  | .error _ => none
  | .ok text =>
    match Module.ofDocument text with
    | .error _ => none
    | .ok m => some (text, m)

/-- The documents among some files, in order. -/
def documents (t : FileTree) (base : Location) (files : List String) : List (String × Module) :=
  files.filterMap (fun file => loadable? (t.read base file))

theorem ofDocument_of_mem_documents {t : FileTree} {base : Location} {files : List String}
    {d : String × Module} (h : d ∈ documents t base files) : Module.ofDocument d.1 = .ok d.2 := by
  obtain ⟨file, -, hfile⟩ := List.mem_filterMap.mp h
  unfold loadable? at hfile
  split at hfile
  · exact absurd hfile (by simp)
  · split at hfile
    · exact absurd hfile (by simp)
    · rename_i text _ m hm
      rw [← Option.some.inj hfile]
      exact hm

theorem loadable?_of_error {reading : Except IoError String} {e : FileError}
    (h : Module.ofReading reading = .error e) : loadable? reading = none := by
  cases reading with
  | error e => rfl
  | ok text =>
    rw [Module.ofReading] at h
    rw [loadable?]
    cases hm : Module.ofDocument text with
    | error e => rfl
    | ok m =>
      rw [hm] at h
      exact absurd h (by simp)

theorem loadable?_of_ok {reading : Except IoError String} {m : Module}
    (h : Module.ofReading reading = .ok m) : ∃ text, loadable? reading = some (text, m) := by
  cases reading with
  | error e => exact absurd h (by simp [Module.ofReading])
  | ok text =>
    rw [Module.ofReading] at h
    rw [loadable?]
    cases hm : Module.ofDocument text with
    | error e =>
      rw [hm] at h
      exact absurd h (by simp)
    | ok m' =>
      rw [hm] at h
      exact ⟨text, by rw [Except.ok.inj h]⟩

/-- The name of a module that a notice says is skipped because it has no fields. -/
def RunNotice.skipped? : RunNotice → Option String
  | .noFields name => some name
  | _ => none

theorem failWith_false {σ : Type} (f : Failure) (next : Stage σ) :
    failWith false f next = .say (.failed f) next := rfl

/-- Loading changes nothing on the disk and skips nothing. -/
theorem loadAll_perform (base : Location) (files : List String) (s : Loaded) (t : FileTree) :
    ∃ errors log, (loadAll false files s).perform base t =
        ⟨.ok ⟨s.registry.insertAll ((documents t base files).map Prod.snd), errors⟩, t, log⟩ ∧
      log.filterMap RunNotice.skipped? = [] := by
  induction files generalizing s with
  | nil => exact ⟨s.errors, [], rfl, rfl⟩
  | cons file files ih =>
    rw [loadAll, Job.perform, Job.perform]
    cases hm : Module.ofReading (t.read base file) with
    | error e =>
      have hdocs : documents t base (file :: files) = documents t base files := by
        simp [documents, loadable?_of_error hm]
      obtain ⟨errors, log, hrest, hlog⟩ := ih { s with errors := s.errors + 1 }
      refine ⟨errors, .loading file :: .failed (.load file e) :: log, ?_, hlog⟩
      simp only [failWith_false, Job.perform, hrest, hdocs]
    | ok m =>
      obtain ⟨text, hload⟩ := loadable?_of_ok hm
      have hdocs : documents t base (file :: files) = (text, m) :: documents t base files := by
        simp [documents, hload]
      cases haccepts : s.registry.accepts m with
      | true =>
        obtain ⟨errors, log, hrest, hlog⟩ := ih { s with registry := s.registry.insert m }
        refine ⟨errors, .loading file :: log, ?_, hlog⟩
        simp only [haccepts, if_true, hrest, hdocs]
        rfl
      | false =>
        obtain ⟨errors, log, hrest, hlog⟩ := ih s
        refine ⟨errors, .loading file :: .superseded file m.name :: log, ?_, hlog⟩
        have hrefused := Registry.insert_refused s.registry m haccepts
        simp only [haccepts, Bool.false_eq_true, if_false, Job.perform, hrest, hdocs,
          List.map_cons, Registry.insertAll, List.foldl_cons, hrefused]

/-- Whether the file of a module is written to the directory at `out`. -/
def Module.isWritten (options : SourceOptions) (base : Location) (out : String) (t : FileTree)
    (m : Module) : Bool :=
  match (m.prepare options).value with
  | .ready file text => (t.write base (Path.join out file) text).result.isOk
  | _ => false

theorem isOk_iff {r : Except IoError Unit} : r.isOk = true ↔ r = .ok () := by
  cases r with
  | error e => simp [Except.isOk, Except.toBool]
  | ok u => simp [Except.isOk, Except.toBool]

/-- What the file of a module makes of a tree. -/
def Module.treeAfter (options : SourceOptions) (base : Location) (out : String) (t : FileTree)
    (m : Module) : FileTree :=
  match (m.prepare options).value with
  | .ready file text => (t.write base (Path.join out file) text).tree
  | _ => t

/-- Whether a module is skipped because it has no fields. -/
def Module.isSkipped (options : SourceOptions) (m : Module) : Bool :=
  match (m.prepare options).value with
  | .noFields => true
  | _ => false

/-- The path of the file of the module `name`. -/
def outputFile (out name : String) : String := Path.join out (name ++ ".ts")

theorem fileName?_eq {name file : String} (h : fileName? name = some file) :
    file = name ++ ".ts" := by
  rw [fileName?] at h
  split at h
  · exact absurd h (by simp)
  · exact (Option.some.inj h).symm

/-- The stages of a module in one view: what it takes to come to a text or to none. -/
theorem Module.prepare_eq (options : SourceOptions) (m : Module) :
    (m.prepare options).value =
      match m.validate with
      | .error f => .failure (.invalid m.name f)
      | .ok () =>
        match fileName? m.name with
        | none => .failure (.fileName m.name)
        | some file => Prepared.ofSource m.name file (m.source options).value := by
  cases hvalid : m.validate with
  | error f => simp [prepare, hvalid]
  | ok u =>
    cases hfile : fileName? m.name with
    | none => simp [prepare, hvalid, hfile]
    | some file => simp [prepare, hvalid, hfile]

theorem Module.prepare_ready {options : SourceOptions} {m : Module} {file text : String}
    (h : (m.prepare options).value = .ready file text) :
    fileName? m.name = some file ∧ m.validate = .ok () ∧
      (m.source options).value = .ok (some text) := by
  rw [prepare_eq] at h
  split at h
  · exact absurd h (by simp)
  · rename_i hvalid
    split at h
    · exact absurd h (by simp)
    · rename_i file' hfile
      unfold Prepared.ofSource at h
      split at h
      · exact absurd h (by simp)
      · exact absurd h (by simp)
      · rename_i text' hsource
        obtain ⟨rfl, rfl⟩ := Prepared.ready.inj h
        exact ⟨hfile, hvalid, hsource⟩

theorem Module.prepare_submodule (options : SourceOptions) {m : Module}
    (h : m.isSubmodule = true) : ∃ f, (m.prepare options).value = .failure f := by
  rw [prepare_eq]
  split
  · exact ⟨_, rfl⟩
  · split
    · exact ⟨_, rfl⟩
    · refine ⟨.root m.name (.noRoot m.name), ?_⟩
      simp [source, interface, h, Except.map, Prepared.ofSource]

theorem skipped?_notices (ns : List Notice) :
    (ns.map RunNotice.output).filterMap RunNotice.skipped? = [] := by
  induction ns with
  | nil => rfl
  | cons n ns ih => exact ih

/-- What writing one module comes to, before the rest is written. -/
theorem writeAll_cons (base : Location) (options : Options) (hbail : options.bail = false)
    (out : String) (m : Module) (rest : List Module) (s : Summary) (t : FileTree) :
    ∃ errors log, (writeAll options out (m :: rest) s).perform base t =
        (let p := (writeAll options out rest
            { written := s.written ++
                if m.isWritten options.source base out t then [outputFile out m.name] else []
              skipped := s.skipped + if m.isSkipped options.source then 1 else 0
              errors }).perform base (m.treeAfter options.source base out t)
         ⟨p.value, p.tree, log ++ p.log⟩) ∧
      log.filterMap RunNotice.skipped? = if m.isSkipped options.source then [m.name] else [] := by
  rw [writeAll]
  cases hsub : m.isSubmodule with
  | true =>
    obtain ⟨f, hf⟩ := m.prepare_submodule options.source hsub
    refine ⟨s.errors, [.skippedSubmodule m.name], ?_, ?_⟩
    · simp [Module.isWritten, Module.treeAfter, Module.isSkipped, hf, Job.perform]
    · simp [Module.isSkipped, hf, RunNotice.skipped?]
  | false =>
    simp only [Bool.false_eq_true, if_false, moduleJob, hbail, failWith_false]
    rw [Job.perform_sayAll]
    let ns := ((m.prepare options.source).notices.map RunNotice.output)
    have hns : ns.filterMap RunNotice.skipped? = [] := skipped?_notices _
    cases hp : (m.prepare options.source).value with
    | failure f =>
      refine ⟨s.errors + 1, ns ++ [.failed f], ?_, ?_⟩
      · simp [Module.isWritten, Module.treeAfter, Module.isSkipped, hp, Job.perform, ns]
      · rw [List.filterMap_append, hns]
        simp [Module.isSkipped, hp, RunNotice.skipped?]
    | noFields =>
      refine ⟨s.errors, ns ++ [.noFields m.name], ?_, ?_⟩
      · simp [Module.isWritten, Module.treeAfter, Module.isSkipped, hp, Job.perform, ns]
      · rw [List.filterMap_append, hns]
        simp [Module.isSkipped, hp, RunNotice.skipped?]
    | ready file text =>
      obtain rfl : file = m.name ++ ".ts" := fileName?_eq (Module.prepare_ready hp).1
      cases hc : (t.write base (Path.join out (m.name ++ ".ts")) text).result with
      | error e =>
        refine ⟨s.errors + 1, ns ++ [.failed (.write (Path.join out (m.name ++ ".ts")) e)], ?_, ?_⟩
        · simp [Module.isWritten, Module.treeAfter, Module.isSkipped, hp, Job.perform, hc, ns,
            Except.isOk, Except.toBool]
        · rw [List.filterMap_append, hns]
          simp [Module.isSkipped, hp, RunNotice.skipped?]
      | ok u =>
        refine ⟨s.errors, ns ++ [.wrote (Path.join out (m.name ++ ".ts"))], ?_, ?_⟩
        · simp [Module.isWritten, Module.treeAfter, Module.isSkipped, hp, Job.perform, hc, ns,
            Except.isOk, Except.toBool, outputFile]
        · rw [List.filterMap_append, hns]
          simp [Module.isSkipped, hp, RunNotice.skipped?]

theorem fileName?_iff (name file : String) :
    fileName? name = some file ↔
      (name ≠ "" ∧ '/' ∉ name.toList ∧ '\x5c' ∉ name.toList) ∧ file = name ++ ".ts" := by
  have hany : name.toList.any (fun c => c == '/' || c == '\x5c') = true ↔
      '/' ∈ name.toList ∨ '\x5c' ∈ name.toList := by
    simp only [List.any_eq_true, Bool.or_eq_true, beq_iff_eq, and_or_left, exists_or,
      exists_eq_right]
  rw [fileName?]
  split
  · rename_i h
    rw [Bool.or_eq_true, decide_eq_true_eq, hany] at h
    constructor
    · intro he
      exact absurd he (by simp)
    · rintro ⟨⟨hne, hslash, hback⟩, -⟩
      exact absurd h (by simp [hne, hslash, hback])
  · rename_i h
    rw [Bool.or_eq_true, decide_eq_true_eq, hany, not_or, not_or] at h
    rw [Option.some.injEq]
    exact ⟨fun he => ⟨h, he.symm⟩, fun he => he.2.symm⟩

theorem isFileName_of_fileName? {name file : String} (h : fileName? name = some file) :
    Path.IsFileName file := by
  obtain ⟨⟨hne, hslash, -⟩, rfl⟩ := (fileName?_iff name file).mp h
  have hchars : (name ++ ".ts").toList = name.toList ++ ['.', 't', 's'] := by simp
  have hend : ∀ s : String, s.toList.getLast? ≠ some 's' → name ++ ".ts" ≠ s := by
    rintro s hs rfl
    exact hs (by simp [hchars])
  refine ⟨hend _ (by decide), ?_, hend _ (by decide), hend _ (by decide)⟩
  rw [hchars]
  simp [hslash]

section

variable {base : Location} {options : SourceOptions} {out : String} {t t' : FileTree} {m : Module}
  {text : String}

/-- A module is written if it comes to a text and that can be written. -/
theorem Module.isWritten_iff :
    m.isWritten options base out t = true ↔
      ∃ text, (m.prepare options).value = .ready (m.name ++ ".ts") text ∧
        (t.write base (outputFile out m.name) text).result = .ok () := by
  unfold isWritten
  split
  · rename_i file text hp
    obtain rfl : file = m.name ++ ".ts" := fileName?_eq (prepare_ready hp).1
    rw [isOk_iff]
    constructor
    · intro h
      exact ⟨text, hp, h⟩
    · rintro ⟨text', hp', h⟩
      rw [hp] at hp'
      rw [(Prepared.ready.inj hp').2]
      exact h
  · rename_i hno
    constructor
    · intro h
      exact absurd h (by simp)
    · rintro ⟨text, hp, -⟩
      exact absurd hp (hno _ text)

theorem Module.isSkipped_iff :
    m.isSkipped options = true ↔ (m.prepare options).value = .noFields := by
  unfold isSkipped
  split
  · rename_i hp
    exact ⟨fun _ => hp, fun _ => rfl⟩
  · rename_i hno
    exact ⟨fun h => absurd h (by simp), fun h => absurd h hno⟩

theorem Module.isFileName_of_ready (h : (m.prepare options).value = .ready (m.name ++ ".ts") text) :
    Path.IsFileName (m.name ++ ".ts") :=
  isFileName_of_fileName? (prepare_ready h).1

/-- Whether a module is written is a question of whether there is a place for its file. -/
theorem Module.isWritten_iff_target (hout : out ≠ "") :
    m.isWritten options base out t = true ↔
      ∃ text place, (m.prepare options).value = .ready (m.name ++ ".ts") text ∧
        FileTree.Target base out t (m.name ++ ".ts") place := by
  rw [isWritten_iff]
  constructor
  · rintro ⟨text, hp, hwrite⟩
    obtain ⟨place, hplace⟩ := FileTree.exists_target hout (isFileName_of_ready hp) hwrite
    exact ⟨text, place, hp, hplace⟩
  · rintro ⟨text, place, hp, hplace⟩
    have hwrite := hplace.write_eq hout (isFileName_of_ready hp) text
    refine ⟨text, hp, ?_⟩
    rw [outputFile, hwrite]

theorem FileTree.Kept.isWritten_eq (hout : out ≠ "") {files : List String}
    (h : FileTree.Kept base out files t t') (m : Module) :
    m.isWritten options base out t' = m.isWritten options base out t := by
  rw [Bool.eq_iff_iff, Module.isWritten_iff_target hout, Module.isWritten_iff_target hout]
  simp only [h.targets]

/-- What a module that is written makes of a tree. -/
theorem Module.treeAfter_eq (hout : out ≠ "") {place : Location}
    (hp : (m.prepare options).value = .ready (m.name ++ ".ts") text)
    (hplace : FileTree.Target base out t (m.name ++ ".ts") place) :
    m.treeAfter options base out t = t.put place (.file (.text text)) := by
  simp only [treeAfter, hp, hplace.write_eq hout (isFileName_of_ready hp)]

theorem Module.treeAfter_of_not_written (h : m.isWritten options base out t = false) :
    m.treeAfter options base out t = t := by
  unfold isWritten at h
  unfold treeAfter
  split
  · rename_i file text hp
    rw [hp] at h
    cases hc : (t.write base (Path.join out file) text).result with
    | error e => exact FileTree.tree_of_write_error hc
    | ok u => exact absurd (h.symm.trans (isOk_iff.mpr hc)) (by decide)
  · rfl

/-- Writing the file of a module, or not writing it, keeps the rest of the directory. -/
theorem Module.treeAfter_kept (base : Location) (options : SourceOptions) (m : Module)
    (t : FileTree) (hout : out ≠ "") :
    FileTree.Kept base out [m.name ++ ".ts"] t (m.treeAfter options base out t) := by
  by_cases h : m.isWritten options base out t = true
  · obtain ⟨text, place, hp, hplace⟩ := (isWritten_iff_target hout).mp h
    rw [treeAfter_eq hout hp hplace]
    exact hplace.kept _
  · rw [treeAfter_of_not_written (by simpa using h)]
    exact FileTree.Kept.refl base out _ t

/-- The file of a module that was written holds its text as long as no other file of the directory
is in its place. -/
theorem Module.read_of_written (hout : out ≠ "") {files : List String}
    (hp : (m.prepare options).value = .ready (m.name ++ ".ts") text)
    (hwritten : m.isWritten options base out t = true)
    (hkept : FileTree.Kept base out files (m.treeAfter options base out t) t')
    (hother : m.name ++ ".ts" ∉ files) :
    t'.read base (outputFile out m.name) = .ok text := by
  obtain ⟨text', place, -, hplace⟩ := (isWritten_iff_target hout).mp hwritten
  have hafter := ((m.treeAfter_kept base options t hout).targets _ place).mpr hplace
  have hfound : t'.find? place = some (.file (.text text)) := by
    rw [hkept.others _ place hafter hother, treeAfter_eq hout hp hplace]
    exact FileTree.find?_put_self t place _ (FileTree.ne_nil_of_not_isDirectory hplace.vacant)
  have hread := ((hkept.targets _ place).mpr hafter).read_eq hout (isFileName_of_ready hp) hfound
  rw [outputFile, hread]
  rfl

end

/-- The names of the modules that are written. -/
def writtenNames (options : SourceOptions) (base : Location) (out : String) (t : FileTree)
    (ms : List Module) : List String :=
  (ms.filter (Module.isWritten options base out t)).map Module.name

/-- The names of the modules that are skipped. -/
def skippedNames (options : SourceOptions) (ms : List Module) : List String :=
  (ms.filter (Module.isSkipped options)).map Module.name

theorem writtenNames_cons (options : SourceOptions) (base : Location) (out : String) (t : FileTree)
    (m : Module) (ms : List Module) :
    writtenNames options base out t (m :: ms) =
      (if m.isWritten options base out t then [m.name] else []) ++
        writtenNames options base out t ms := by
  rw [writtenNames, List.filter_cons]
  split <;> rfl

theorem skippedNames_cons (options : SourceOptions) (m : Module) (ms : List Module) :
    skippedNames options (m :: ms) =
      (if m.isSkipped options then [m.name] else []) ++ skippedNames options ms := by
  rw [skippedNames, List.filter_cons]
  split <;> rfl

theorem writtenNames_kept {options : SourceOptions} {base : Location} {out : String}
    (hout : out ≠ "") {t t' : FileTree} {files : List String}
    (h : FileTree.Kept base out files t t') (ms : List Module) :
    writtenNames options base out t' ms = writtenNames options base out t ms := by
  have hsame : Module.isWritten options base out t' = Module.isWritten options base out t :=
    funext fun m => h.isWritten_eq hout m
  rw [writtenNames, hsame, writtenNames]

theorem append_ts_inj {a b : String} (h : a ++ ".ts" = b ++ ".ts") : a = b := by
  rw [← String.toList_inj] at h ⊢
  simpa using h

/-- Writing some modules of distinct names: what is written and skipped is seen from the tree at
the beginning, and each file holds its text at the end. -/
theorem writeAll_perform (base : Location) (options : Options) (hbail : options.bail = false)
    {out : String} (hout : out ≠ "") (ms : List Module) (hnames : (ms.map Module.name).Nodup)
    (s : Summary) (t : FileTree) :
    ∃ errors log t', (writeAll options out ms s).perform base t =
        ⟨.ok
          { written := s.written ++
              (writtenNames options.source base out t ms).map (outputFile out)
            skipped := s.skipped + (skippedNames options.source ms).length
            errors }, t', log⟩ ∧
      log.filterMap RunNotice.skipped? = skippedNames options.source ms ∧
      FileTree.Kept base out (ms.map (fun m => m.name ++ ".ts")) t t' ∧
      ∀ m ∈ ms, ∀ text, (m.prepare options.source).value = .ready (m.name ++ ".ts") text →
        m.isWritten options.source base out t = true →
          t'.read base (outputFile out m.name) = .ok text := by
  induction ms generalizing s t with
  | nil =>
    refine ⟨s.errors, [], t, ?_, rfl, .refl base out _ t, by simp⟩
    simp [writeAll, Job.perform, writtenNames, skippedNames]
  | cons m rest ih =>
    rw [List.map_cons, List.nodup_cons] at hnames
    obtain ⟨errors, log, hstep, hlog⟩ := writeAll_cons base options hbail out m rest s t
    have hkept := m.treeAfter_kept base options.source t hout
    obtain ⟨errors', log', t', hrest, hlog', hkept', hread⟩ := ih hnames.2
      ⟨s.written ++ if m.isWritten options.source base out t then [outputFile out m.name] else [],
        s.skipped + if m.isSkipped options.source then 1 else 0, errors⟩
      (m.treeAfter options.source base out t)
    rw [writtenNames_kept hout hkept] at hrest
    refine ⟨errors', log ++ log', t', ?_, ?_, hkept.trans hkept', ?_⟩
    · have hskipped : s.skipped + (if m.isSkipped options.source then 1 else 0) +
          (skippedNames options.source rest).length =
            s.skipped + (skippedNames options.source (m :: rest)).length := by
        rw [skippedNames_cons, List.length_append, Nat.add_assoc]
        split <;> rfl
      have hwritten : s.written ++
          (if m.isWritten options.source base out t then [outputFile out m.name] else []) ++
          (writtenNames options.source base out t rest).map (outputFile out) =
          s.written ++
            (writtenNames options.source base out t (m :: rest)).map (outputFile out) := by
        rw [writtenNames_cons, List.map_append, List.append_assoc]
        split <;> rfl
      rw [hstep]
      simp only [hrest, hskipped, hwritten]
    · rw [List.filterMap_append, hlog, hlog', skippedNames_cons]
    · intro m' hm' text hp hwritten
      rcases List.mem_cons.mp hm' with rfl | hm'
      · refine Module.read_of_written hout hp hwritten hkept' ?_
        intro hm
        obtain ⟨m, hm, he⟩ := List.mem_map.mp hm
        exact hnames.1 (append_ts_inj he ▸ List.mem_map_of_mem hm)
      · rw [← hkept.isWritten_eq hout] at hwritten
        exact hread m' hm' text hp hwritten

end YangScript
